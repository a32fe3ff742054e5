import ReluLogic.Proofs.Encoding.Layout

/-!
Growth of the counter. Whatever an encoding ends with, it has left the state as it is or moved the counter
forward. Where nothing is remembered yet, an encoding that succeeds has taken a variable.
-/

namespace ReluLogic

namespace Encoding

variable {β : Type} {computation : Encoding β}

/-! ### Every outcome -/

theorem Moves.advances (h : computation.Moves) : computation.Advances :=
  fun before => (h before).eq_or_counter_lt

theorem advances_encode (coefficients : List Fraction) : (encode coefficients).Advances :=
  (moves_encode coefficients).advances

/-! ### Success -/

/-- Where no zero and no constant is remembered, the computation succeeds only with a variable taken. -/
def Takes (computation : Encoding β) : Prop :=
  ∀ ⦃before result after⦄, before.zero = none → before.constants = .empty →
    computation.Returns before result after → before.counter < after.counter

theorem takes_zeroFormula : (liftM zeroFormula : Encoding Formula).Takes := by
  rintro ⟨counter, zero, constants, auxMultipliers⟩ result after hzero _ hreturns
  cases hzero
  cases hreturns
  exact Nat.lt_succ_self counter

theorem takes_constant (denominator : Nat) : (constant denominator).Takes := by
  intro before result after _ hconstants hreturns
  obtain ⟨state, middle, hget, hnext⟩ := returns_bind.mp hreturns
  cases hget
  rw [hconstants] at hnext
  change (defineConstant denominator).Returns before result after at hnext
  rw [defineConstant] at hnext
  split_ifs at hnext
  · cases hnext
  · obtain ⟨index, first, hindex, hrest⟩ := returns_bind.mp hnext
    cases returns_lift.mp hindex
    have hmoves := hrest.moves ((moves_multiple _ _).bind fun _ => moves_pure _)
    exact (Nat.lt_succ_self before.counter).trans_le hmoves.counter_le

theorem takes_termPart (term : ScaledTerm) : (termPart term).Takes := by
  intro before part after hzero hconstants hrun
  obtain ⟨index, definition, middle, hconstant, hrest⟩ := returns_termPart.mp hrun
  have hlt := takes_constant _ hzero hconstants hconstant
  rcases hrest with ⟨-, product, hproduct, rfl⟩ | ⟨-, hterm⟩
  · exact hlt.trans_le (hproduct.moves (moves_multiplyConstant _ _)).counter_le
  · exact hlt.trans_le (hterm.moves (moves_inputTerm _ _ _)).counter_le

/-- A group with a term that is not zero takes the constant of the first such term. -/
theorem takes_foldlM_addTerm (terms : List ScaledTerm) (hterms : terms.all (·.numerator == 0) = false) :
    ∀ group, (terms.foldlM addTerm group).Takes := by
  induction terms with
  | nil => exact Bool.noConfusion hterms
  | cons term terms ih =>
      intro group before result after hzero hconstants hrun
      obtain ⟨added, middle, hadded, hrest⟩ := returns_bind.mp hrun
      rcases returns_addTerm.mp hadded with ⟨hnumerator, rfl, rfl⟩ | ⟨-, part, hpart, rfl⟩
      · rw [List.all_cons, hnumerator, beq_self_eq_true, Bool.true_and] at hterms
        exact ih hterms added hzero hconstants hrest
      · exact (takes_termPart term hzero hconstants hpart).trans_le
          (hrest.moves (moves_foldlM moves_addTerm terms _)).counter_le

theorem takes_group (terms : List ScaledTerm) : (group terms).Takes := by
  intro before modsat after hzero hconstants hrun
  rcases returns_group.mp hrun with ⟨-, phi, hphi, rfl⟩ | ⟨hterms, hfold⟩
  · exact takes_zeroFormula hzero hconstants hphi
  · exact takes_foldlM_addTerm terms (Bool.eq_false_iff.mpr hterms) _ hzero hconstants hfold

theorem takes_encode (coefficients : List Fraction) : (encode coefficients).Takes := by
  intro before modsat after hzero hconstants hrun
  rcases returns_encode.mp hrun with ⟨-, phi, hphi, rfl⟩ | ⟨-, scale, terms, -, hterms⟩
  · exact takes_zeroFormula hzero hconstants hphi
  · obtain ⟨positive, first, negative, second, scaled, hpositive, hnegative, hscaled, rfl⟩ := returns_ofTerms.mp hterms
    have hrest := (hnegative.moves (moves_group _)).counter_le.trans (hscaled.moves (moves_multiple _ _)).counter_le
    exact (takes_group _ hzero hconstants hpositive).trans_le hrest

end Encoding

end ReluLogic
