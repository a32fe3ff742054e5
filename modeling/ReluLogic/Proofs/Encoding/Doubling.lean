import ReluLogic.Encoding.Doubling
import ReluLogic.Proofs.Formula.Evaluation

/-!
Doubling chains. The formulas of a chain hold exactly when its variables carry the doubled multiples of the
term, each cut off at one, and then the clause of the set bits of `n` denotes the multiple `n · term`, cut off
at one. Any valuation can be changed on the chain so that they do.
-/

namespace ReluLogic

/-! ### Bits -/

theorem sum_filter_testBit (n count : Nat) :
    (((List.range count).filter n.testBit).map (2 ^ ·)).sum = n % 2 ^ count := by
  induction count with
  | zero => rw [pow_zero, Nat.mod_one]; rfl
  | succ count ih =>
      rw [List.range_succ, List.filter_append, List.map_append, List.sum_append, ih, Nat.mod_pow_succ]
      refine congrArg (n % 2 ^ count + ·) ?_
      rw [List.filter_singleton, Nat.testBit_eq_decide_div_mod_eq]
      rcases Nat.mod_two_eq_zero_or_one (n / 2 ^ count) with hbit | hbit <;> rw [hbit] <;> simp

/-- The set bits of a number add up to it. -/
theorem sum_setBits (n : Nat) : ((setBits n).map (2 ^ ·)).sum = n := by
  rw [setBits, sum_filter_testBit, Nat.mod_eq_of_lt Nat.lt_log2_self]

theorem le_log2_of_mem_setBits {n bit : Nat} (h : bit ∈ setBits n) : bit ≤ n.log2 :=
  Nat.lt_succ_iff.mp (List.mem_range.mp (List.mem_filter.mp h).1)

theorem log2_mono {m n : Nat} (h : m ≤ n) : m.log2 ≤ n.log2 := by
  rw [Nat.log2_eq_log_two, Nat.log2_eq_log_two]
  exact Nat.log_mono_right h

/-! ### Chains -/

/-- The variables from `first` to `first + last` carry the doubled multiples of a degree, cut off at one. -/
def Chained (valuation : Nat → ℚ) (first last : Nat) (degree : ℚ) : Prop :=
  ∀ step ≤ last, valuation (first + step) = min (2 ^ step * degree) 1

theorem min_double {x : ℚ} (h : 0 ≤ x) : min (min x 1 + min x 1) 1 = min (2 * x) 1 := by
  rw [Formula.min_add_min h h, two_mul]

/-- A chain is carried by its first variable and by each variable doubling the one before it. -/
theorem chained_iff {valuation : Nat → ℚ} {first last : Nat} {degree : ℚ} (hzero : 0 ≤ degree)
    (hone : degree ≤ 1) :
    Chained valuation first last degree ↔ valuation first = degree ∧
      ∀ step < last, valuation (first + step + 1) = min (valuation (first + step) + valuation (first + step)) 1 := by
  have hpow : ∀ step : Nat, (0 : ℚ) ≤ 2 ^ step * degree := fun step => mul_nonneg (by positivity) hzero
  have hdouble : ∀ step : Nat, (2 : ℚ) ^ (step + 1) * degree = 2 * (2 ^ step * degree) := by
    intro step
    ring
  constructor
  · intro h
    refine ⟨?_, fun step hstep => ?_⟩
    · have hfirst := h 0 (Nat.zero_le _)
      rwa [pow_zero, one_mul, min_eq_left hone] at hfirst
    · rw [h step hstep.le, add_assoc, h (step + 1) hstep, min_double (hpow step), hdouble]
  · rintro ⟨hfirst, hstep⟩ step
    induction step with
    | zero =>
        intro _
        rw [pow_zero, one_mul, min_eq_left hone]
        exact hfirst
    | succ step ih =>
        intro hle
        rw [← add_assoc, hstep step hle, ih (Nat.le_of_succ_le hle), min_double (hpow step), hdouble]

theorem Chained.mono {valuation : Nat → ℚ} {first last less : Nat} {degree : ℚ}
    (h : Chained valuation first last degree) (hle : less ≤ last) : Chained valuation first less degree :=
  fun step hstep => h step (hstep.trans hle)

theorem Chained.congr {valuation other : Nat → ℚ} {first last bound : Nat} {degree : ℚ}
    (h : Chained valuation first last degree) (hbound : first + last ≤ bound)
    (hagree : ∀ index ≤ bound, other index = valuation index) : Chained other first last degree := by
  intro step hstep
  rw [hagree (first + step) (by omega), h step hstep]

namespace Encoding

variable {valuation : Nat → ℚ} {first last n : Nat} {term : Formula} {degree : ℚ}

/-- The formulas of a chain say that its variables carry the doubled multiples of the term. -/
theorem satisfies_chain_iff (hunit : UnitValued valuation) (hbound : first + last ≤ variableMax)
    (hterm : term.Denotes valuation degree) (hzero : 0 ≤ degree) (hone : degree ≤ 1) :
    Formula.Satisfies valuation (chain first term last) ↔ Chained valuation first last degree := by
  have hatom : ∀ {step : Nat}, step < last →
      (Formula.atom (first + step + 1)).Denotes valuation (valuation (first + step + 1)) :=
    fun hstep => Formula.denotes_atom hunit (by omega)
  have hfirst : (Formula.atom first).Denotes valuation (valuation first) :=
    Formula.denotes_atom hunit (by omega)
  have hdouble : ∀ {index : Nat}, index ≤ first + last →
      (Formula.clause [(index : Int), (index : Int)]).Denotes valuation
        (min (valuation index + valuation index) 1) := by
    intro index hindex
    have hclause := Formula.denotes_clause valuation [(index : Int), (index : Int)]
    rw [Subformula.clauseSum, List.map_cons, List.map_singleton, List.sum_cons, List.sum_singleton,
      Subformula.literalDegree_natCast (hindex.trans hbound)] at hclause
    exact hclause
  rw [chained_iff hzero hone, Formula.Satisfies, chain, List.forall_mem_cons, List.forall_mem_map]
  refine and_congr (Formula.holds_equivalent_iff hunit hfirst hterm) ?_
  refine forall_congr' fun step => ?_
  rw [List.mem_range]
  refine forall_congr' fun hstep => ?_
  exact Formula.holds_equivalent_iff hunit (hatom hstep) (hdouble (by omega))

theorem min_sum_min (values : List ℚ) (hvalues : ∀ value ∈ values, 0 ≤ value) :
    min (values.map (min · 1)).sum 1 = min values.sum 1 := by
  induction values with
  | nil => rfl
  | cons value values ih =>
      obtain ⟨hvalue, hrest⟩ := List.forall_mem_cons.mp hvalues
      have hsum : 0 ≤ (values.map (min · 1)).sum := by
        refine List.sum_nonneg fun cut hcut => ?_
        obtain ⟨other, hother, rfl⟩ := List.mem_map.mp hcut
        exact le_min (hrest other hother) zero_le_one
      rw [List.map_cons, List.sum_cons, List.sum_cons, ← Formula.min_add_min hvalue (List.sum_nonneg hrest),
        ← ih hrest, Formula.min_add_min hvalue hsum, ← Formula.min_add_min (le_min hvalue zero_le_one) hsum,
        min_assoc, min_self, Formula.min_add_min hvalue hsum]

/-- On a chain the clause of the set bits of `n` denotes the `n`-fold term, cut off at one. -/
theorem denotes_bitClause (hbound : first + n.log2 ≤ variableMax) (hzero : 0 ≤ degree)
    (h : Chained valuation first n.log2 degree) :
    (bitClause first n).Denotes valuation (min (n * degree) 1) := by
  have hliterals : (setBits n).map (fun bit => Subformula.literalDegree valuation ((first + bit : Nat) : Int)) =
      ((setBits n).map fun bit => (2 : ℚ) ^ bit * degree).map (min · 1) := by
    rw [List.map_map]
    refine List.map_congr_left fun bit hbit => ?_
    have hle := le_log2_of_mem_setBits hbit
    rw [Subformula.literalDegree_natCast (by omega), h bit hle]
    rfl
  have hsum : ((setBits n).map fun bit => (2 : ℚ) ^ bit * degree).sum = n * degree := by
    rw [List.sum_map_mul_right]
    refine congrArg (· * degree) ?_
    conv_rhs => rw [← sum_setBits n, Nat.cast_list_sum, List.map_map]
    refine congrArg List.sum (List.map_congr_left fun bit _ => ?_)
    exact (Nat.cast_pow 2 bit).symm
  have hclause := Formula.denotes_clause valuation
    ((setBits n).map fun bit => ((first + bit : Nat) : Int))
  rw [Subformula.clauseSum, List.map_map, Function.comp_def, hliterals, min_sum_min, hsum] at hclause
  · exact hclause
  · intro value hvalue
    obtain ⟨bit, -, rfl⟩ := List.mem_map.mp hvalue
    exact mul_nonneg (by positivity) hzero

/-- A valuation changed on a chain so that the chain carries a degree. -/
def withChain (valuation : Nat → ℚ) (first last : Nat) (degree : ℚ) (index : Nat) : ℚ :=
  if first ≤ index ∧ index ≤ first + last then min (2 ^ (index - first) * degree) 1 else valuation index

theorem chained_withChain (valuation : Nat → ℚ) (first last : Nat) (degree : ℚ) :
    Chained (withChain valuation first last degree) first last degree := by
  intro step hstep
  rw [withChain, if_pos ⟨Nat.le_add_right _ _, Nat.add_le_add_left hstep _⟩, Nat.add_sub_cancel_left]

theorem withChain_of_lt {index : Nat} (h : index < first) :
    withChain valuation first last degree index = valuation index :=
  if_neg fun hmem => absurd hmem.1 (not_le.mpr h)

theorem withChain_of_gt {index : Nat} (h : first + last < index) :
    withChain valuation first last degree index = valuation index :=
  if_neg fun hmem => absurd hmem.2 (not_le.mpr h)

/-- Off the chain there is nothing to change, and on it there is no choice. -/
theorem eq_withChain {extended : Nat → ℚ} (hchain : Chained extended first last degree)
    (hagree : ∀ index, index < first ∨ first + last < index → extended index = valuation index) :
    extended = withChain valuation first last degree := by
  funext index
  rw [withChain]
  split_ifs with hmem
  · have hstep := hchain (index - first) (Nat.sub_le_iff_le_add'.mpr hmem.2)
    rwa [Nat.add_sub_cancel' hmem.1] at hstep
  · exact hagree index (by omega)

theorem unitValued_withChain (hunit : UnitValued valuation) (hzero : 0 ≤ degree) :
    UnitValued (withChain valuation first last degree) := by
  intro index
  rw [withChain]
  split_ifs
  · exact ⟨le_min (mul_nonneg (by positivity) hzero) zero_le_one, min_le_right _ _⟩
  · exact hunit index

/-! ### Variables of a chain -/

theorem within_chain {P : Nat → Prop} (hterm : term.Within P) (h : ∀ step ≤ last, P (first + step)) :
    ∀ formula ∈ chain first term last, formula.Within P := by
  refine List.forall_mem_cons.mpr ⟨(Formula.within_atom (h 0 (Nat.zero_le _))).push hterm _, fun formula hformula => ?_⟩
  obtain ⟨step, hstep, rfl⟩ := List.mem_map.mp hformula
  have hstep' : step < last := List.mem_range.mp hstep
  refine (Formula.within_atom (h (step + 1) hstep')).push (Formula.within_clause ?_) _
  intro literal hliteral
  simp only [List.mem_cons, List.not_mem_nil, or_false, or_self] at hliteral
  rw [hliteral, Int.natAbs_natCast]
  exact h step hstep'.le

theorem within_bitClause {P : Nat → Prop} (h : ∀ step ≤ n.log2, P (first + step)) : (bitClause first n).Within P := by
  refine Formula.within_clause fun literal hliteral => ?_
  obtain ⟨bit, hbit, rfl⟩ := List.mem_map.mp hliteral
  rw [Int.natAbs_natCast]
  exact h bit (le_log2_of_mem_setBits hbit)

theorem below_chain {bound : Nat} (hterm : term.Below bound) (hbound : first + last ≤ bound) :
    ∀ formula ∈ chain first term last, formula.Below bound :=
  within_chain (Formula.below_iff_within.mp hterm) fun _ hstep => (Nat.add_le_add_left hstep _).trans hbound

theorem below_bitClause {bound : Nat} (hbound : first + n.log2 ≤ bound) : (bitClause first n).Below bound :=
  Formula.below_iff_within.mpr (within_bitClause fun _ hstep => (Nat.add_le_add_left hstep _).trans hbound)

end Encoding

end ReluLogic
