import ReluLogic.Proofs.Encoding.Layout
import ReluLogic.Proofs.Formula.Tree

/-!
Exactness of multiples. From every state of allocation and for every term over variables handed out, the chain of a
multiple can be filled in for a valuation in exactly one way, and the multiple then has the degree of the term times
the factor, cut off at one.
-/

namespace ReluLogic

namespace Encoding

variable {n first last : Nat} {before after : Allocator} {term : Formula} {modsat : Modsat}
  {valuation : Nat → ℚ} {degree : ℚ}

/-- Changing a valuation on a chain is the one way to make the formulas of the chain hold. -/
theorem existsUnique_satisfies_chain (hbound : first + last ≤ variableMax) (hzero : 0 ≤ degree) (hone : degree ≤ 1)
    (hunit : UnitValued valuation)
    (hterm : ∀ ⦃extended : Nat → ℚ⦄, (∀ index < first, extended index = valuation index) →
      term.Denotes extended degree) :
    ∃! extended, UnitValued extended ∧
      (∀ index, index < first ∨ first + last < index → extended index = valuation index) ∧
      Formula.Satisfies extended (chain first term last) := by
  have hunit' : UnitValued (withChain valuation first last degree) := unitValued_withChain hunit hzero
  have hagree : ∀ index, index < first ∨ first + last < index →
      withChain valuation first last degree index = valuation index := by
    rintro index (hlt | hgt)
    · exact withChain_of_lt hlt
    · exact withChain_of_gt hgt
  refine ⟨withChain valuation first last degree, ⟨hunit', hagree, ?_⟩, ?_⟩
  · have hchain := satisfies_chain_iff hunit' hbound (hterm fun index hlt => hagree index (Or.inl hlt)) hzero hone
    exact hchain.mpr (chained_withChain _ _ _ _)
  · rintro extended ⟨hunit'', hagree', hsatisfies⟩
    have hchain := satisfies_chain_iff hunit'' hbound (hterm fun index hlt => hagree' index (Or.inl hlt)) hzero hone
    exact eq_withChain (hchain.mp hsatisfies) hagree'

/-- The definitions of a multiple leave one choice for the variables handed out for them. -/
theorem existsUnique_satisfies_multiple (hn : n ≠ 0) (hbelow : term.Below before.counter)
    (hrun : (multiple n term).run before = (modsat, after)) (hmax : after.counter ≤ variableMax)
    (hunit : UnitValued valuation) (hterm : term.Denotes valuation degree) (hzero : 0 ≤ degree) (hone : degree ≤ 1) :
    ∃! extended, UnitValued extended ∧
      (∀ index, index ≤ before.counter ∨ after.counter < index → extended index = valuation index) ∧
      Formula.Satisfies extended modsat.defining := by
  obtain rfl | htwo : n = 1 ∨ 2 ≤ n := by omega
  · cases hrun
    refine ⟨valuation, ⟨hunit, fun _ _ => rfl, Formula.satisfies_nil⟩, ?_⟩
    rintro extended ⟨-, hagree, -⟩
    funext index
    exact hagree index (le_or_gt index before.counter)
  · rw [run_multiple_of_two_le htwo] at hrun
    cases hrun
    have hcounter : before.counter + 1 + n.log2 = before.counter + (n.log2 + 1) := by omega
    have hchain := existsUnique_satisfies_chain (hcounter.le.trans hmax) hzero hone hunit fun extended hagree =>
      (hbelow.denotes_congr ((Nat.le_add_right _ _).trans hmax) fun index hle =>
        hagree index (Nat.lt_succ_of_le hle)).mpr hterm
    simpa only [Nat.lt_succ_iff, hcounter] using hchain

/-- Multiples are exact. A term that refers to earlier places and to variables handed out has a degree; its multiple
needs no definition for nothing, and otherwise exactly one extension of a valuation to the variables handed out for
it makes its definitions hold. Where they hold, the multiple has the degree of the term times the factor, cut off at
one. From two on one variable and one definition are made for each bit of the factor. Variables count from one. -/
theorem multiple_exact (hordered : term.Ordered) (hne : term ≠ .empty) (hbelow : term.Below before.counter)
    (hzero : n = 0 → before.zero ≠ some 0) (hrun : (multiple n term).run before = (modsat, after))
    (hmax : after.counter ≤ variableMax) (hunit : UnitValued valuation) :
    ∃ degree, term.evaluate valuation = .ok (some degree) ∧
      (n = 0 → modsat.defining = []) ∧
      (n ≠ 0 → ∃! extended, UnitValued extended ∧
        (∀ index, index ≤ before.counter ∨ after.counter < index → extended index = valuation index) ∧
        ∀ formula ∈ modsat.defining, formula.evaluate extended = .ok (some 1)) ∧
      (∀ extended, UnitValued extended → (∀ index ≤ before.counter, extended index = valuation index) →
        (∀ formula ∈ modsat.defining, formula.evaluate extended = .ok (some 1)) →
        modsat.phi.evaluate extended = .ok (some (min 1 (n * degree)))) ∧
      (2 ≤ n → after = { before with counter := before.counter + (n.log2 + 1) } ∧
        modsat.defining.length = n.log2 + 1) := by
  have htotal := hordered.total hne
  have hbound : before.counter ≤ variableMax := by
    have hmoves := moves_multiple n term before
    rw [returns_lift.mpr hrun] at hmoves
    exact hmoves.counter_le.trans hmax
  obtain ⟨degree, hnonneg, hone, hdegree⟩ := htotal hunit
  refine ⟨degree, hdegree, fun hn => ?_, fun hn => ?_, fun extended hunit' hagree hdefining => ?_, fun htwo => ?_⟩
  · subst hn
    obtain ⟨index, middle, hzeroRun, -⟩ := run_multiple_zero term before
    cases hzeroRun.symm.trans hrun
    rfl
  · exact existsUnique_satisfies_multiple hn hbelow hrun hmax hunit hdegree hnonneg hone
  · have hterm : term.Denotes extended degree := (hbelow.denotes_congr hbound hagree).mpr hdegree
    rw [min_comm]
    exact denotes_multiple htotal hzero hrun hmax hunit' hdefining hterm
  · rw [run_multiple_of_two_le htwo] at hrun
    cases hrun
    refine ⟨rfl, ?_⟩
    rw [chain, List.length_cons, List.length_map, List.length_range]

/-- The formula `¬(x₁ ⊕ x₂)`. -/
def neither : Formula :=
  ((Formula.atom 1).push .strongDisjunction (.atom 2)).negate

/-- Five times `neither` at three eighths: the chain is cut off in its last doubling, and the multiple as well. -/
theorem multiple_exact_neither :
    ∃ modsat after, (multiple 5 neither).run (.ofDim 2) = (modsat, after) ∧
      after.counter = 5 ∧ modsat.defining.length = 3 ∧
      (∃! extended, UnitValued extended ∧
        (∀ index, index ≤ 2 ∨ 5 < index → extended index = [0, 1 / 2, 1 / 8].getD index 0) ∧
        ∀ formula ∈ modsat.defining, formula.evaluate extended = .ok (some 1)) ∧
      modsat.phi.evaluate ([0, 1 / 2, 1 / 8, 3 / 8, 3 / 4, 1].getD · 0 : Nat → ℚ) = .ok (some 1) := by
  have hbuilt : neither.Built := ((Formula.Built.atom 1).push .strongDisjunction (.atom 2)).negate
  have hbelow : neither.Below 2 := ((Formula.below_atom one_le_two).push (Formula.below_atom le_rfl) _).negate
  have hunit : UnitValued ([0, 1 / 2, 1 / 8].getD · 0) := unitValued_getD (by norm_num)
  have hrun : (multiple 5 neither).run (.ofDim 2) =
      (⟨bitClause 3 5, chain 3 neither 2⟩, { Allocator.ofDim 2 with counter := 5 }) := rfl
  obtain ⟨degree, hdegree, -, hunique, hphi, hsize⟩ := multiple_exact hbuilt.ordered (by decide) hbelow
    (fun _ => (Allocator.layout_ofDim 2).zero_ne) hrun (by decide) hunit
  have hthree : degree = 3 / 8 := by
    have hvalue : neither.evaluate ([0, 1 / 2, 1 / 8].getD · 0) = .ok (some (3 / 8 : ℚ)) := by decide +kernel
    exact Option.some.inj (Except.ok.inj (hdegree.symm.trans hvalue))
  refine ⟨_, _, hrun, rfl, (hsize (by decide)).2, hunique (by decide), ?_⟩
  have hcut := hphi ([0, 1 / 2, 1 / 8, 3 / 8, 3 / 4, 1].getD · 0) (unitValued_getD (by norm_num)) (by decide +kernel)
    (by decide +kernel)
  rw [hcut, hthree]
  norm_num

end Encoding

end ReluLogic
