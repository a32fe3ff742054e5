import ReluLogic.Formula.Basic
import ReluLogic.Proofs.Fallible
import ReluLogic.Proofs.Rational

/-!
Truth degrees in the exact reading. A formula denotes the degree of its last subformula; joining formulas
applies the connective to the degrees, whichever way the join is written down. The degree depends on the
variables that occur only.
-/

namespace ReluLogic

/-- A valuation into the unit interval. -/
def UnitValued (valuation : Nat → ℚ) : Prop :=
  ∀ index, 0 ≤ valuation index ∧ valuation index ≤ 1

theorem UnitValued.update {valuation : Nat → ℚ} (h : UnitValued valuation) {degree : ℚ} (hzero : 0 ≤ degree)
    (hone : degree ≤ 1) (index : Nat) : UnitValued (Function.update valuation index degree) := by
  intro other
  rcases eq_or_ne other index with rfl | hne
  · rw [Function.update_self]
    exact ⟨hzero, hone⟩
  · rw [Function.update_of_ne hne]
    exact h other

theorem unitValued_getD {degrees : List ℚ} (h : ∀ degree ∈ degrees, 0 ≤ degree ∧ degree ≤ 1) :
    UnitValued (degrees.getD · 0) := by
  intro index
  show 0 ≤ degrees.getD index 0 ∧ degrees.getD index 0 ≤ 1
  rcases lt_or_ge index degrees.length with hlt | hge
  · rw [List.getD_eq_getElem _ _ hlt]
    exact h _ (List.getElem_mem hlt)
  · rw [List.getD_eq_default _ _ hge]
    exact ⟨le_rfl, zero_le_one⟩

namespace Connective

theorem apply_strongDisjunction (a b : ℚ) : strongDisjunction.apply a b = min (a + b) 1 :=
  Scalar.smaller_eq_min _ _

theorem apply_implication (a b : ℚ) : implication.apply a b = min (1 - a + b) 1 :=
  Scalar.smaller_eq_min _ _

theorem apply_equivalence (a b : ℚ) : equivalence.apply a b = 1 - |a - b| :=
  congrArg (1 - ·) (Scalar.magnitude_eq_abs _)

theorem apply_maximum (a b : ℚ) : maximum.apply a b = max a b :=
  Scalar.larger_eq_max _ _

theorem apply_minimum (a b : ℚ) : minimum.apply a b = min a b :=
  Scalar.smaller_eq_min _ _

end Connective

/-! ### Literals and clauses -/

namespace Subformula

variable {valuation other : Nat → ℚ} {literals more : List Int} {index : Nat}

theorem mod_of_le (h : index ≤ variableMax) : index % (variableMax + 1) = index :=
  Nat.mod_eq_of_lt (Nat.lt_succ_of_le h)

theorem literalDegree_natCast (h : index ≤ variableMax) : literalDegree valuation (index : Int) = valuation index := by
  rw [literalDegree, if_neg (not_lt.mpr (Int.natCast_nonneg index)), Int.natAbs_natCast, mod_of_le h]

theorem literalDegree_neg (hpos : 0 < index) :
    literalDegree valuation (-(index : Int)) = 1 - literalDegree valuation (index : Int) := by
  rw [literalDegree, literalDegree, if_pos (Int.neg_neg_of_pos (Int.natCast_pos.mpr hpos)),
    if_neg (not_lt.mpr (Int.natCast_nonneg index)), Int.natAbs_neg]

theorem literalDegree_nonneg (h : UnitValued valuation) (literal : Int) : 0 ≤ literalDegree valuation literal := by
  rw [literalDegree]
  split_ifs
  · exact sub_nonneg.mpr (h _).2
  · exact (h _).1

/-- The sum of the degrees of literals, not cut off. -/
def clauseSum (valuation : Nat → ℚ) (literals : List Int) : ℚ :=
  (literals.map (literalDegree valuation)).sum

theorem clauseSum_append : clauseSum valuation (literals ++ more) =
    clauseSum valuation literals + clauseSum valuation more := by
  rw [clauseSum, List.map_append, List.sum_append]
  rfl

theorem clauseSum_nonneg (h : UnitValued valuation) : 0 ≤ clauseSum valuation literals := by
  refine List.sum_nonneg fun degree hdegree => ?_
  obtain ⟨literal, -, rfl⟩ := List.mem_map.mp hdegree
  exact literalDegree_nonneg h literal

theorem degree_clause (known : Array ℚ) :
    degree valuation known (.clause literals) = .ok (min (clauseSum valuation literals) 1) := by
  rw [degree, Scalar.smaller_eq_min, Scalar.sum_eq_sum]
  rfl

end Subformula

/-! ### Degrees of all subformulas -/

namespace Formula

variable {valuation : Nat → ℚ}

/-- The degrees known so far with that of one more subformula. -/
def extend (valuation : Nat → ℚ) (known : Array ℚ) (unit : Subformula) : Except Dangling (Array ℚ) := do
  let degree ← unit.degree valuation known
  pure (known.push degree)

theorem degrees_eq (formula : Formula) :
    formula.degrees valuation = formula.units.foldlM (extend valuation) #[] :=
  rfl

theorem extend_eq_ok {known result : Array ℚ} {unit : Subformula} :
    extend valuation known unit = .ok result ↔
      ∃ degree, unit.degree valuation known = .ok degree ∧ result = known.push degree := by
  rw [extend, bind_eq_ok]
  exact exists_congr fun degree => and_congr_right fun _ =>
    ⟨fun h => (Except.ok.inj h).symm, fun h => congrArg Except.ok h.symm⟩

theorem size_of_foldlM (units : List Subformula) :
    ∀ {known result : Array ℚ}, units.foldlM (extend valuation) known = .ok result →
      result.size = known.size + units.length := by
  induction units with
  | nil =>
      intro known result h
      cases h
      rfl
  | cons unit units ih =>
      intro known result h
      rw [List.foldlM_cons, bind_eq_ok] at h
      obtain ⟨middle, hmiddle, hrest⟩ := h
      obtain ⟨degree, -, rfl⟩ := extend_eq_ok.mp hmiddle
      rw [ih hrest, Array.size_push, List.length_cons]
      omega

theorem size_degrees {formula : Formula} {known : Array ℚ} (h : formula.degrees valuation = .ok known) :
    known.size = formula.size := by
  rw [size_of_foldlM _ h]
  exact Nat.zero_add _

theorem operandDegree_eq_ok {known : Array ℚ} {operand : Nat} {degree : ℚ} :
    Subformula.operandDegree known operand = .ok degree ↔ known[operand]? = some degree := by
  rw [Subformula.operandDegree]
  cases known[operand]? with
  | none =>
      constructor
      · intro h
        cases h
      · intro h
        cases h
  | some found =>
      constructor
      · intro h
        cases h
        rfl
      · intro h
        cases h
        rfl

/-- A subformula that is moved up behind others has the degree that it had. -/
theorem degree_shifted {before known : Array ℚ} {unit : Subformula} {degree : ℚ}
    (h : unit.degree valuation known = .ok degree) :
    (unit.shifted before.size).degree valuation (before ++ known) = .ok degree := by
  have hoperand : ∀ {operand : Nat} {value : ℚ}, Subformula.operandDegree known operand = .ok value →
      Subformula.operandDegree (before ++ known) (operand + before.size) = .ok value := by
    intro operand value hvalue
    rw [operandDegree_eq_ok] at hvalue ⊢
    rw [Array.getElem?_append_right (Nat.le_add_left _ _), Nat.add_sub_cancel, hvalue]
  cases unit with
  | clause literals => exact h
  | negation operand =>
      obtain ⟨value, hvalue, hdegree⟩ := bind_eq_ok.mp h
      exact bind_eq_ok.mpr ⟨value, hoperand hvalue, hdegree⟩
  | binary connective left right =>
      obtain ⟨a, hleft, h⟩ := bind_eq_ok.mp h
      obtain ⟨b, hright, hdegree⟩ := bind_eq_ok.mp h
      exact bind_eq_ok.mpr ⟨a, hoperand hleft, bind_eq_ok.mpr ⟨b, hoperand hright, hdegree⟩⟩

theorem foldlM_shifted (before : Array ℚ) (units : List Subformula) :
    ∀ {known result : Array ℚ}, units.foldlM (extend valuation) known = .ok result →
      (units.map (.shifted before.size)).foldlM (extend valuation) (before ++ known) =
        .ok (before ++ result) := by
  induction units with
  | nil =>
      intro known result h
      cases h
      rfl
  | cons unit units ih =>
      intro known result h
      rw [List.foldlM_cons, bind_eq_ok] at h
      obtain ⟨middle, hmiddle, hrest⟩ := h
      obtain ⟨degree, hdegree, rfl⟩ := extend_eq_ok.mp hmiddle
      rw [List.map_cons, List.foldlM_cons, bind_eq_ok]
      refine ⟨(before ++ known).push degree, extend_eq_ok.mpr ⟨degree, degree_shifted hdegree, rfl⟩, ?_⟩
      rw [← Array.append_push]
      exact ih hrest

/-! ### Denotation -/

/-- The formula has a last subformula, of the given degree. -/
def Denotes (formula : Formula) (valuation : Nat → ℚ) (degree : ℚ) : Prop :=
  formula.evaluate valuation = .ok (some degree)

/-- The formula is fully true. -/
def Holds (formula : Formula) (valuation : Nat → ℚ) : Prop :=
  formula.Denotes valuation 1

variable {left right formula : Formula} {a b : ℚ}

theorem denotes_iff : formula.Denotes valuation a ↔
    ∃ known, formula.degrees valuation = .ok known ∧ known.back? = some a := by
  rw [Denotes, evaluate, bind_eq_ok]
  exact exists_congr fun known => and_congr_right fun _ =>
    ⟨fun h => Except.ok.inj h, fun h => congrArg Except.ok h⟩

theorem Denotes.unique (h : formula.Denotes valuation a) (h' : formula.Denotes valuation b) : a = b :=
  Option.some.inj (Except.ok.inj (h.symm.trans h'))

theorem Denotes.isEmpty_eq (h : formula.Denotes valuation a) : formula.isEmpty = false := by
  obtain ⟨units⟩ := formula
  cases units with
  | nil =>
      obtain ⟨known, hknown, hback⟩ := denotes_iff.mp h
      cases hknown
      cases hback
  | cons unit units => rfl

theorem denotes_clause (valuation : Nat → ℚ) (literals : List Int) :
    (clause literals).Denotes valuation (min (Subformula.clauseSum valuation literals) 1) := by
  refine denotes_iff.mpr ⟨#[min (Subformula.clauseSum valuation literals) 1], ?_, rfl⟩
  rw [degrees_eq, clause, List.foldlM_cons, bind_eq_ok]
  exact ⟨_, extend_eq_ok.mpr ⟨_, Subformula.degree_clause _, rfl⟩, rfl⟩

theorem denotes_atom (hunit : UnitValued valuation) {index : Nat} (h : index ≤ variableMax) :
    (atom index).Denotes valuation (valuation index) := by
  have hclause := denotes_clause valuation [(index : Int)]
  rw [Subformula.clauseSum, List.map_singleton, List.sum_singleton, Subformula.literalDegree_natCast h,
    min_eq_left (hunit index).2] at hclause
  exact hclause

theorem Denotes.negate (h : formula.Denotes valuation a) : formula.negate.Denotes valuation (1 - a) := by
  obtain ⟨known, hknown, hback⟩ := denotes_iff.mp h
  have hroot : formula.root? = some (formula.size - 1) := by
    rw [root?, h.isEmpty_eq, if_neg Bool.false_ne_true]
  rw [Formula.negate, hroot]
  refine denotes_iff.mpr ⟨known.push (1 - a), ?_, Array.back?_push⟩
  rw [degrees_eq, List.foldlM_append, bind_eq_ok]
  refine ⟨known, hknown, ?_⟩
  rw [List.foldlM_cons, bind_eq_ok]
  refine ⟨_, extend_eq_ok.mpr ⟨1 - a, bind_eq_ok.mpr ⟨a, operandDegree_eq_ok.mpr ?_, rfl⟩, rfl⟩, rfl⟩
  rw [← size_degrees hknown, ← Array.back?_eq_getElem?, hback]

theorem Denotes.join (hleft : left.Denotes valuation a) (hright : right.Denotes valuation b)
    (connective : Connective) :
    (left.join connective right).Denotes valuation (connective.apply a b) := by
  obtain ⟨known, hknown, hback⟩ := denotes_iff.mp hleft
  obtain ⟨other, hother, hback'⟩ := denotes_iff.mp hright
  have hsize := size_degrees hknown
  have hsize' := size_degrees hother
  have hpos : 0 < known.size := by
    rw [Array.back?_eq_getElem?] at hback
    exact (Nat.zero_le _).trans_lt (Array.getElem?_eq_some_iff.mp hback).1
  have hpos' : 0 < other.size := by
    rw [Array.back?_eq_getElem?] at hback'
    exact (Nat.zero_le _).trans_lt (Array.getElem?_eq_some_iff.mp hback').1
  have hmoved := foldlM_shifted known right.units hother
  rw [Array.append_empty] at hmoved
  have hfirst : (known ++ other)[left.size - 1]? = some a := by
    rw [← hsize, Array.getElem?_append_left (by omega), ← Array.back?_eq_getElem?, hback]
  have hsecond : (known ++ other)[left.size + right.size - 1]? = some b := by
    rw [← hsize, ← hsize', Array.getElem?_append_right (by omega), ← hback', Array.back?_eq_getElem?]
    exact congrArg (other[·]?) (by omega)
  refine denotes_iff.mpr ⟨(known ++ other).push (connective.apply a b), ?_, Array.back?_push⟩
  rw [degrees_eq, Formula.join, List.foldlM_append, bind_eq_ok]
  refine ⟨known ++ other, ?_, ?_⟩
  · rw [List.foldlM_append, bind_eq_ok, ← hsize]
    exact ⟨known, hknown, hmoved⟩
  · rw [List.foldlM_cons, bind_eq_ok]
    refine ⟨_, extend_eq_ok.mpr ⟨connective.apply a b, ?_, rfl⟩, rfl⟩
    exact bind_eq_ok.mpr ⟨a, operandDegree_eq_ok.mpr hfirst,
      bind_eq_ok.mpr ⟨b, operandDegree_eq_ok.mpr hsecond, rfl⟩⟩

/-- Two clauses under a strong disjunction are as true as the one clause of all their literals. -/
theorem min_add_min {x y : ℚ} (hx : 0 ≤ x) (hy : 0 ≤ y) : min (min x 1 + min y 1) 1 = min (x + y) 1 := by
  rcases le_total x 1 with hx' | hx'
  · rcases le_total y 1 with hy' | hy'
    · rw [min_eq_left hx', min_eq_left hy']
    · rw [min_eq_left hx', min_eq_right hy', min_eq_right (by linarith), min_eq_right (by linarith)]
  · rw [min_eq_right hx', min_eq_right (by linarith [le_min hy zero_le_one]), min_eq_right (by linarith)]

/-- Combining formulas applies the connective to their degrees. -/
theorem Denotes.push (hunit : UnitValued valuation) (hleft : left.Denotes valuation a)
    (hright : right.Denotes valuation b) (connective : Connective) :
    (left.push connective right).Denotes valuation (connective.apply a b) := by
  unfold Formula.push
  rw [hleft.isEmpty_eq, hright.isEmpty_eq, if_neg Bool.false_ne_true, if_neg Bool.false_ne_true]
  split
  · rename_i mine theirs hmine htheirs
    obtain ⟨units⟩ := left
    obtain ⟨units'⟩ := right
    cases hmine
    cases htheirs
    rw [hleft.unique (denotes_clause valuation mine), hright.unique (denotes_clause valuation theirs),
      Connective.apply_strongDisjunction, min_add_min (Subformula.clauseSum_nonneg hunit)
        (Subformula.clauseSum_nonneg hunit), ← Subformula.clauseSum_append]
    exact denotes_clause valuation _
  · exact hleft.join hright _

/-- Only clauses under a strong disjunction are merged, so any other connective applies whatever the valuation. -/
theorem Denotes.push_of_ne (hleft : left.Denotes valuation a) (hright : right.Denotes valuation b)
    (connective : Connective) (h : connective ≠ .strongDisjunction) :
    (left.push connective right).Denotes valuation (connective.apply a b) := by
  unfold Formula.push
  rw [hleft.isEmpty_eq, hright.isEmpty_eq, if_neg Bool.false_ne_true, if_neg Bool.false_ne_true]
  split
  · exact absurd rfl h
  · exact hleft.join hright _

/-- An empty formula takes the place of the connective's identity. -/
theorem push_of_isEmpty {connective : Connective} (h : connective.hasLeftIdentity = true) (right : Formula) :
    empty.push connective right = right := by
  obtain ⟨units⟩ := right
  unfold Formula.push
  cases units with
  | nil => rfl
  | cons unit units => exact if_pos h

theorem holds_equivalent_iff (hunit : UnitValued valuation) (hleft : left.Denotes valuation a)
    (hright : right.Denotes valuation b) : (left.equivalent right).Holds valuation ↔ a = b := by
  have hdenotes := hleft.push hunit hright .equivalence
  rw [Connective.apply_equivalence] at hdenotes
  constructor
  · intro h
    have habs : |a - b| = 0 := by linarith [hdenotes.unique h]
    exact sub_eq_zero.mp (abs_eq_zero.mp habs)
  · rintro rfl
    rw [sub_self, abs_zero, sub_zero] at hdenotes
    exact hdenotes

theorem holds_implication_iff (hunit : UnitValued valuation) (hleft : left.Denotes valuation a)
    (hright : right.Denotes valuation b) : (left.push .implication right).Holds valuation ↔ a ≤ b := by
  have hdenotes := hleft.push hunit hright .implication
  rw [Connective.apply_implication] at hdenotes
  constructor
  · intro h
    linarith [(min_eq_right_iff.mp (hdenotes.unique h))]
  · intro h
    rw [min_eq_right (by linarith)] at hdenotes
    exact hdenotes

/-- All formulas of a list are fully true. -/
def Satisfies (valuation : Nat → ℚ) (formulas : List Formula) : Prop :=
  ∀ formula ∈ formulas, formula.Holds valuation

theorem satisfies_append {formulas others : List Formula} :
    Satisfies valuation (formulas ++ others) ↔ Satisfies valuation formulas ∧ Satisfies valuation others :=
  List.forall_mem_append

theorem satisfies_nil : Satisfies valuation [] :=
  fun _ hmem => absurd hmem List.not_mem_nil

theorem satisfies_singleton : Satisfies valuation [formula] ↔ formula.Holds valuation :=
  List.forall_mem_singleton

/-! ### Formulas with a degree -/

/-- The formula has a degree in the unit interval under every valuation into it. -/
def Total (formula : Formula) : Prop :=
  ∀ ⦃valuation⦄, UnitValued valuation → ∃ degree, 0 ≤ degree ∧ degree ≤ 1 ∧ formula.Denotes valuation degree

theorem Total.degree_mem (h : formula.Total) (hunit : UnitValued valuation) {degree : ℚ}
    (hdegree : formula.Denotes valuation degree) : 0 ≤ degree ∧ degree ≤ 1 := by
  obtain ⟨value, hzero, hone, hvalue⟩ := h hunit
  rw [hdegree.unique hvalue]
  exact ⟨hzero, hone⟩

theorem total_clause (literals : List Int) : (clause literals).Total := by
  intro valuation hunit
  exact ⟨_, le_min (Subformula.clauseSum_nonneg hunit) zero_le_one, min_le_right _ _, denotes_clause _ literals⟩

theorem total_atom (index : Nat) : (atom index).Total :=
  total_clause _

theorem Total.negate (h : formula.Total) : formula.negate.Total := by
  intro valuation hunit
  obtain ⟨degree, hzero, hone, hdenotes⟩ := h hunit
  exact ⟨1 - degree, sub_nonneg.mpr hone, sub_le_self 1 hzero, hdenotes.negate⟩

end Formula

theorem Connective.apply_mem (connective : Connective) {a b : ℚ} (ha : 0 ≤ a ∧ a ≤ 1) (hb : 0 ≤ b ∧ b ≤ 1) :
    0 ≤ connective.apply a b ∧ connective.apply a b ≤ 1 := by
  cases connective with
  | strongDisjunction =>
      rw [apply_strongDisjunction]
      exact ⟨le_min (add_nonneg ha.1 hb.1) zero_le_one, min_le_right _ _⟩
  | strongConjunction =>
      rw [apply, Scalar.larger_eq_max]
      exact ⟨le_max_right _ _, max_le (by linarith [ha.2, hb.2]) zero_le_one⟩
  | equivalence =>
      rw [apply_equivalence]
      have habs : |a - b| ≤ 1 := abs_le.mpr ⟨by linarith [ha.1, hb.2], by linarith [ha.2, hb.1]⟩
      exact ⟨sub_nonneg.mpr habs, sub_le_self 1 (abs_nonneg _)⟩
  | implication =>
      rw [apply_implication]
      exact ⟨le_min (by linarith [ha.2, hb.1]) zero_le_one, min_le_right _ _⟩
  | maximum =>
      rw [apply_maximum]
      exact ⟨ha.1.trans (le_max_left _ _), max_le ha.2 hb.2⟩
  | minimum =>
      rw [apply_minimum]
      exact ⟨le_min ha.1 hb.1, (min_le_left _ _).trans ha.2⟩

namespace Formula

variable {valuation : Nat → ℚ} {left right formula : Formula} {a b : ℚ}

theorem Total.push (hleft : left.Total) (hright : right.Total) (connective : Connective) :
    (left.push connective right).Total := by
  intro valuation hunit
  obtain ⟨a, hzero, hone, hdenotes⟩ := hleft hunit
  obtain ⟨b, hzero', hone', hdenotes'⟩ := hright hunit
  obtain ⟨hlow, hhigh⟩ := connective.apply_mem ⟨hzero, hone⟩ ⟨hzero', hone'⟩
  exact ⟨_, hlow, hhigh, hdenotes.push hunit hdenotes' connective⟩

/-! ### Occurring variables -/

/-- A variable occurs in a clause of the formula. -/
def Mentions (formula : Formula) (index : Nat) : Prop :=
  ∃ literals, .clause literals ∈ formula.units ∧ ∃ literal ∈ literals, literal.natAbs = index

/-- All variables of a formula have a property. -/
def Within (formula : Formula) (P : Nat → Prop) : Prop :=
  ∀ literals, .clause literals ∈ formula.units → ∀ literal ∈ literals, P literal.natAbs

theorem within_iff {P : Nat → Prop} : formula.Within P ↔ ∀ index, formula.Mentions index → P index := by
  constructor
  · rintro h _ ⟨literals, hliterals, literal, hliteral, rfl⟩
    exact h literals hliterals literal hliteral
  · intro h literals hliterals literal hliteral
    exact h _ ⟨literals, hliterals, literal, hliteral, rfl⟩

section Within

variable {P Q : Nat → Prop}

theorem Within.mono (h : formula.Within P) (himp : ∀ index, P index → Q index) : formula.Within Q :=
  fun literals hliterals literal hmem => himp _ (h literals hliterals literal hmem)

theorem within_clause {literals : List Int} (h : ∀ literal ∈ literals, P literal.natAbs) :
    (clause literals).Within P := by
  intro others hothers literal hliteral
  cases List.mem_singleton.mp hothers
  exact h literal hliteral

theorem within_atom {index : Nat} (h : P index) : (atom index).Within P :=
  within_clause (List.forall_mem_singleton.mpr (by rwa [Int.natAbs_natCast]))

theorem within_empty : empty.Within P :=
  fun _ hliterals => absurd hliterals List.not_mem_nil

theorem Within.negate (h : formula.Within P) : formula.negate.Within P := by
  rw [Formula.negate]
  split
  · exact h
  · intro literals hliterals
    rcases List.mem_append.mp hliterals with hliterals | hliterals
    · exact h literals hliterals
    · cases List.mem_singleton.mp hliterals

theorem Within.join (hleft : left.Within P) (hright : right.Within P) (connective : Connective) :
    (left.join connective right).Within P := by
  intro literals hliterals
  rcases List.mem_append.mp hliterals with hliterals | hliterals
  · rcases List.mem_append.mp hliterals with hliterals | hliterals
    · exact hleft literals hliterals
    · obtain ⟨unit, hunit, heq⟩ := List.mem_map.mp hliterals
      cases unit with
      | clause others =>
          cases heq
          exact hright literals hunit
      | negation operand => cases heq
      | binary connective first second => cases heq
  · cases List.mem_singleton.mp hliterals

theorem Within.push (hleft : left.Within P) (hright : right.Within P) (connective : Connective) :
    (left.push connective right).Within P := by
  unfold Formula.push
  split_ifs
  · exact hleft
  · exact hright
  · exact hleft
  · split
    · rename_i mine theirs hmine htheirs
      refine within_clause fun literal hliteral => ?_
      rcases List.mem_append.mp hliteral with hliteral | hliteral
      · exact hleft mine (by rw [hmine]; exact List.mem_cons_self) literal hliteral
      · exact hright theirs (by rw [htheirs]; exact List.mem_cons_self) literal hliteral
    · exact hleft.join hright _

end Within

/-- All variables of a formula are among the first `bound` ones. -/
def Below (formula : Formula) (bound : Nat) : Prop :=
  ∀ literals, .clause literals ∈ formula.units → ∀ literal ∈ literals, literal.natAbs ≤ bound

variable {bound larger : Nat}

theorem below_iff_within : formula.Below bound ↔ formula.Within (· ≤ bound) :=
  Iff.rfl

theorem Below.mono (h : formula.Below bound) (hle : bound ≤ larger) : formula.Below larger :=
  Within.mono (below_iff_within.mp h) fun _ hindex => hindex.trans hle

theorem below_clause {literals : List Int} (h : ∀ literal ∈ literals, literal.natAbs ≤ bound) :
    (clause literals).Below bound :=
  below_iff_within.mpr (within_clause h)

theorem below_atom {index : Nat} (h : index ≤ bound) : (atom index).Below bound :=
  below_iff_within.mpr (within_atom h)

theorem below_empty : empty.Below bound :=
  below_iff_within.mpr within_empty

theorem Below.negate (h : formula.Below bound) : formula.negate.Below bound :=
  Within.negate (below_iff_within.mp h)

theorem Below.push (hleft : left.Below bound) (hright : right.Below bound) (connective : Connective) :
    (left.push connective right).Below bound :=
  Within.push (below_iff_within.mp hleft) (below_iff_within.mp hright) connective

/-- The degree depends on the variables that occur only. -/
theorem Below.evaluate_congr {other : Nat → ℚ} (h : formula.Below bound) (hbound : bound ≤ variableMax)
    (hagree : ∀ index ≤ bound, valuation index = other index) :
    formula.evaluate valuation = formula.evaluate other := by
  have hliteral : ∀ literal : Int, literal.natAbs ≤ bound →
      Subformula.literalDegree valuation literal = Subformula.literalDegree other literal := by
    intro literal hle
    rw [Subformula.literalDegree, Subformula.literalDegree, Subformula.mod_of_le (hle.trans hbound), hagree _ hle]
  have hdegrees : formula.degrees valuation = formula.degrees other := by
    obtain ⟨units⟩ := formula
    rw [degrees_eq, degrees_eq]
    generalize (#[] : Array ℚ) = known
    induction units generalizing known with
    | nil => rfl
    | cons unit units ih =>
        have hunit : extend valuation known unit = extend other known unit := by
          cases unit with
          | clause literals =>
              rw [extend, extend, Subformula.degree_clause, Subformula.degree_clause, Subformula.clauseSum,
                Subformula.clauseSum, List.map_congr_left fun literal hmem =>
                  hliteral literal (h literals List.mem_cons_self literal hmem)]
          | negation operand => rfl
          | binary connective first second => rfl
        rw [List.foldlM_cons, List.foldlM_cons, hunit]
        refine congrArg _ (funext fun middle => ?_)
        exact ih (fun literals hliterals => h literals (List.mem_cons_of_mem _ hliterals)) middle
  rw [evaluate, evaluate, hdegrees]

theorem Below.denotes_congr {other : Nat → ℚ} (h : formula.Below bound) (hbound : bound ≤ variableMax)
    (hagree : ∀ index ≤ bound, valuation index = other index) :
    formula.Denotes valuation a ↔ formula.Denotes other a := by
  rw [Denotes, Denotes, h.evaluate_congr hbound hagree]

end Formula

end ReluLogic
