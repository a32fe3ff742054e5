import ReluLogic.Proofs.Encoding.Piece

/-!
Failures of the encoding. Coefficients are refused before a variable is taken: for a denominator of zero, for a running
sum out of range, for a scale or a scaled denominator beyond 64 bits. Once they are accepted every fraction is at most
one, since the scale bounds every coefficient, and nothing that comes after can fail, whatever the state of allocation.
-/

namespace ReluLogic

namespace Fraction

variable {num den : Int} {left right fraction : Fraction}

/-- A positive denominator without a factor in common with the numerator. -/
structure Coprime (fraction : Fraction) : Prop where
  den_pos : 0 < fraction.den
  gcd_eq : Int.gcd fraction.num fraction.den = 1

theorem coprime_make (num : Int) (h : 0 < den) : (make num den).Coprime := by
  refine ⟨(value_make num h.ne').2, ?_⟩
  rw [make]
  split_ifs with hzero hneg
  · rfl
  · exact absurd h (not_lt.mpr hneg.le)
  · exact Int.gcd_ediv_gcd_ediv_gcd (Int.gcd_pos_of_ne_zero_left den hzero)

theorem coprime_combine? {operation : Int → Int → Int} (hleft : 0 < left.den) (hright : 0 < right.den)
    (h : combine? operation left right = some fraction) : fraction.Coprime := by
  obtain ⟨common, hpos, rfl, -⟩ := combine?_eq_some hleft hright h
  exact coprime_make _ hpos

/-- In lowest terms the ceiling is that of the value. -/
theorem Coprime.ceiling_eq (h : fraction.Coprime) : fraction.ceiling = ⌈(fraction.value : ℚ)⌉ := by
  have hpos : (0 : ℚ) < fraction.den := by exact_mod_cast h.den_pos
  rw [ceiling]
  split_ifs with hone
  · rw [value_eq, hone, Int.cast_one, div_one, Int.ceil_intCast]
  · symm
    rw [Int.ceil_eq_iff]
    refine ⟨?_, ?_⟩
    · rw [value_eq, lt_div_iff₀ hpos]
      have hrest : fraction.num % fraction.den ≠ 0 := by
        intro hzero
        have hgcd := h.gcd_eq
        rw [Int.gcd_eq_natAbs_right_iff_dvd.mpr (Int.dvd_of_emod_eq_zero hzero)] at hgcd
        have := h.den_pos
        omega
      have hnonneg := Int.emod_nonneg fraction.num h.den_pos.ne'
      have hsplit := Int.emod_add_mul_ediv fraction.num fraction.den
      have hlt : fraction.num / fraction.den * fraction.den < fraction.num := by
        rw [mul_comm]
        omega
      push_cast
      rw [add_sub_cancel_right]
      exact_mod_cast hlt
    · have hle := value_le_ceiling h.den_pos
      rwa [ceiling, if_neg hone] at hle

theorem value_larger (hleft : 0 < left.den) (hright : 0 < right.den) :
    ((left.larger right).value : ℚ) = max left.value right.value := by
  obtain ⟨hfirst, hsecond, -⟩ := value_le_larger hleft hright
  refine le_antisymm ?_ (max_le hfirst hsecond)
  rw [larger]
  split_ifs
  · exact le_max_right _ _
  · exact le_max_left _ _

end Fraction

/-! ### Sums and scale -/

/-- The least integer that bounds the sum of the positive coefficients and that of the magnitudes of the others. -/
def leastScale (coefficients : List Fraction) : Int :=
  ⌈max (coefficients.map fun coefficient => max (coefficient.value : ℚ) 0).sum
    (coefficients.map fun coefficient => max (-(coefficient.value : ℚ)) 0).sum⌉

theorem leastScale_nonneg (coefficients : List Fraction) : 0 ≤ leastScale coefficients := by
  refine Int.ceil_nonneg (le_max_of_le_left (List.sum_nonneg fun value hvalue => ?_))
  obtain ⟨coefficient, -, rfl⟩ := List.mem_map.mp hvalue
  exact le_max_right _ _

namespace SignedSums

variable {before after sums : SignedSums} {coefficient : Fraction} {coefficients : List Fraction}

/-- The sum of its sign goes out of range with one more coefficient. -/
def Overflows (sums : SignedSums) (coefficient : Fraction) : Prop :=
  if coefficient.reduced.num < 0 then sums.negative.sub? coefficient.reduced = none
  else sums.positive.add? coefficient.reduced = none

/-- A coefficient is refused for a denominator of zero, or for the sum that it makes overflow. -/
theorem add_eq_error {fault : EncodingFault} : sums.add coefficient = .error fault ↔
    coefficient.den = 0 ∧ fault = .zeroDenominator ∨
      coefficient.den ≠ 0 ∧ sums.Overflows coefficient ∧ fault = .sumOverflow := by
  rw [add, Overflows]
  by_cases hden : coefficient.den = 0
  · rw [if_pos hden]
    constructor
    · intro h
      cases h
      exact Or.inl ⟨hden, rfl⟩
    · rintro (⟨-, rfl⟩ | ⟨hnot, -⟩)
      · rfl
      · exact absurd hden hnot
  · rw [if_neg hden]
    simp only [hden, false_and, false_or, ne_eq, not_false_eq_true, true_and]
    split_ifs
    · cases sums.negative.sub? coefficient.reduced with
      | none =>
          refine ⟨fun h => ?_, fun h => h.2 ▸ rfl⟩
          cases h
          exact ⟨rfl, rfl⟩
      | some negative => exact iff_of_false (fun h => by cases h) fun h => by cases h.1
    · cases sums.positive.add? coefficient.reduced with
      | none =>
          refine ⟨fun h => ?_, fun h => h.2 ▸ rfl⟩
          cases h
          exact ⟨rfl, rfl⟩
      | some positive => exact iff_of_false (fun h => by cases h) fun h => by cases h.1

theorem add_coprime (hpositive : before.positive.Coprime) (hnegative : before.negative.Coprime)
    (h : before.add coefficient = .ok after) :
    coefficient.den ≠ 0 ∧ after.positive.Coprime ∧ after.negative.Coprime := by
  rw [add] at h
  split_ifs at h with hden
  have hlowest := (Fraction.value_reduced hden).2
  by_cases hneg : coefficient.reduced.num < 0
  · rw [if_pos hneg] at h
    cases hsub : before.negative.sub? coefficient.reduced with
    | none =>
        rw [hsub] at h
        cases h
    | some negative =>
        rw [hsub] at h
        cases h
        exact ⟨hden, hpositive, Fraction.coprime_combine? hnegative.den_pos hlowest hsub⟩
  · rw [if_neg hneg] at h
    cases hadd : before.positive.add? coefficient.reduced with
    | none =>
        rw [hadd] at h
        cases h
    | some positive =>
        rw [hadd] at h
        cases h
        exact ⟨hden, Fraction.coprime_combine? hpositive.den_pos hlowest hadd, hnegative⟩

theorem foldlM_add_coprime (coefficients : List Fraction) : ∀ {before after : SignedSums},
    before.positive.Coprime → before.negative.Coprime → coefficients.foldlM add before = .ok after →
      (∀ coefficient ∈ coefficients, coefficient.den ≠ 0) ∧ after.positive.Coprime ∧ after.negative.Coprime := by
  induction coefficients with
  | nil =>
      intro before after hpositive hnegative h
      cases h
      exact ⟨fun _ hmem => absurd hmem List.not_mem_nil, hpositive, hnegative⟩
  | cons coefficient coefficients ih =>
      intro before after hpositive hnegative h
      rw [List.foldlM_cons, bind_eq_ok] at h
      obtain ⟨middle, hmiddle, hrest⟩ := h
      obtain ⟨hden, hpositive, hnegative⟩ := add_coprime hpositive hnegative hmiddle
      obtain ⟨hdens, hsums⟩ := ih hpositive hnegative hrest
      exact ⟨List.forall_mem_cons.mpr ⟨hden, hdens⟩, hsums⟩

/-- Sums that stay in range have the least scale as their bound, and no coefficient a denominator of zero. -/
theorem bound_eq_leastScale (h : ofCoefficients coefficients = .ok sums) :
    (∀ coefficient ∈ coefficients, coefficient.den ≠ 0) ∧ sums.bound = leastScale coefficients := by
  have hzero : (Fraction.zero).Coprime := ⟨one_pos, rfl⟩
  obtain ⟨hdens, hpositive, hnegative⟩ := foldlM_add_coprime coefficients hzero hzero h
  have hadds := foldlM_add_eq_ok coefficients (show 0 < zero.positive.den from one_pos) one_pos h
  have hlarger : (sums.positive.larger sums.negative).Coprime := by
    rw [Fraction.larger]
    split_ifs
    · exact hnegative
    · exact hpositive
  refine ⟨hdens, ?_⟩
  rw [bound, hlarger.ceiling_eq, Fraction.value_larger hpositive.den_pos hnegative.den_pos, hadds.positive_eq,
    hadds.negative_eq]
  simp only [zero, Fraction.value_zero, zero_add]
  rfl

end SignedSums

/-! ### Refused coefficients -/

/-- Why coefficients are refused. -/
inductive Refuses (coefficients : List Fraction) : EncodingFault → Prop
  | zeroDenominator {coefficient : Fraction} (hmem : coefficient ∈ coefficients) (hden : coefficient.den = 0) :
      Refuses coefficients .zeroDenominator
  | sumOverflow {first rest : List Fraction} {coefficient : Fraction} {sums : SignedSums}
      (hsplit : coefficients = first ++ coefficient :: rest) (hsums : SignedSums.ofCoefficients first = .ok sums)
      (hden : coefficient.den ≠ 0) (hoverflow : sums.Overflows coefficient) : Refuses coefficients .sumOverflow
  | scaleOutOfRange (hscale : (unsigned64Max : Int) < leastScale coefficients) :
      Refuses coefficients (.scaleOutOfRange (leastScale coefficients))
  | denominatorOverflow {coefficient : Fraction} (hmem : coefficient ∈ coefficients)
      (hdenominator : unsigned64Max < coefficient.reduced.den.natAbs * (leastScale coefficients).toNat) :
      Refuses coefficients
        (.denominatorOverflow coefficient.reduced.den.natAbs (leastScale coefficients).toNat)

theorem scaledTerms_eq_error {scale : Nat} {fault : EncodingFault} (coefficients : List Fraction) :
    ∀ {input : Nat}, scaledTerms scale input coefficients = .error fault → ∃ coefficient ∈ coefficients,
      unsigned64Max < coefficient.reduced.den.natAbs * scale ∧
        fault = .denominatorOverflow coefficient.reduced.den.natAbs scale := by
  induction coefficients with
  | nil =>
      intro input h
      cases h
  | cons coefficient coefficients ih =>
      intro input h
      rcases bind_eq_error.mp h with hterm | ⟨term, -, hrest⟩
      · rw [ScaledTerm.ofCoefficient] at hterm
        split_ifs at hterm with hlarge
        · cases hterm
          exact ⟨coefficient, List.mem_cons_self, hlarge, rfl⟩
        · cases hterm
      · rcases bind_eq_error.mp hrest with hterms | ⟨terms, -, hpure⟩
        · obtain ⟨other, hother, hfault⟩ := ih hterms
          exact ⟨other, List.mem_cons_of_mem _ hother, hfault⟩
        · cases hpure

theorem le_of_scaledTerms {scale : Nat} (coefficients : List Fraction) : ∀ {input : Nat} {terms : List ScaledTerm},
    scaledTerms scale input coefficients = .ok terms → ∀ coefficient ∈ coefficients,
      coefficient.reduced.den.natAbs * scale ≤ unsigned64Max := by
  induction coefficients with
  | nil => exact fun _ _ hmem => absurd hmem List.not_mem_nil
  | cons coefficient coefficients ih =>
      intro input terms h
      obtain ⟨term, hterm, h⟩ := bind_eq_ok.mp h
      obtain ⟨others, hothers, -⟩ := bind_eq_ok.mp h
      refine List.forall_mem_cons.mpr ⟨?_, ih hothers⟩
      rw [ScaledTerm.ofCoefficient] at hterm
      split_ifs at hterm with hlarge
      exact not_lt.mp hlarge

namespace Encoding

variable {coefficients : List Fraction}

theorem scaleOf_eq_error {fault : EncodingFault} (h : scaleOf coefficients = .error fault) :
    Refuses coefficients fault := by
  rcases bind_eq_error.mp h with hsums | ⟨sums, hsums, hrange⟩
  · obtain ⟨first, coefficient, rest, middle, hsplit, hfirst, hfault⟩ := foldlM_eq_error.mp hsums
    rcases SignedSums.add_eq_error.mp hfault with ⟨hden, rfl⟩ | ⟨hden, hoverflow, rfl⟩
    · exact .zeroDenominator (hsplit ▸ List.mem_append_right _ List.mem_cons_self) hden
    · exact .sumOverflow hsplit hfirst hden hoverflow
  · rw [(SignedSums.bound_eq_leastScale hsums).2] at hrange
    split_ifs at hrange with hout
    · cases hrange
      exact .scaleOutOfRange (hout.resolve_left (leastScale_nonneg coefficients).not_gt)
    · cases hrange

theorem scaleOf_eq_leastScale {scale : Nat} (h : scaleOf coefficients = .ok scale) :
    scale = (leastScale coefficients).toNat ∧ leastScale coefficients ≤ unsigned64Max := by
  obtain ⟨sums, hsums, hrange⟩ := bind_eq_ok.mp h
  rw [(SignedSums.bound_eq_leastScale hsums).2] at hrange
  split_ifs at hrange with hout
  cases hrange
  exact ⟨rfl, not_lt.mp fun hlarge => hout (Or.inr hlarge)⟩

/-- The checks before the first variable refuse coefficients for a reason. -/
theorem prepare_eq_error {fault : EncodingFault} (h : prepare coefficients = .error fault) :
    Refuses coefficients fault := by
  rcases bind_eq_error.mp h with hscale | ⟨scale, hscale, hrest⟩
  · exact scaleOf_eq_error hscale
  · rcases bind_eq_error.mp hrest with hterms | ⟨terms, -, hpure⟩
    · obtain ⟨coefficient, hmem, hlarge, rfl⟩ := scaledTerms_eq_error coefficients hterms
      rw [(scaleOf_eq_leastScale hscale).1] at hlarge ⊢
      exact .denominatorOverflow hmem hlarge
    · cases hpure

/-- Coefficients that pass the checks are refused for no reason. -/
theorem not_refuses_of_prepare {scale : Nat} {terms : List ScaledTerm} (h : prepare coefficients = .ok (scale, terms))
    (fault : EncodingFault) : ¬ Refuses coefficients fault := by
  obtain ⟨made, hscale, h⟩ := bind_eq_ok.mp h
  obtain ⟨made', hterms, h⟩ := bind_eq_ok.mp h
  cases h
  obtain ⟨sums, hsums, -⟩ := bind_eq_ok.mp hscale
  obtain ⟨hscaleEq, hle⟩ := scaleOf_eq_leastScale hscale
  intro hrefuses
  cases hrefuses with
  | zeroDenominator hmem hden => exact (SignedSums.bound_eq_leastScale hsums).1 _ hmem hden
  | sumOverflow hsplit hfirst hden hoverflow =>
      have hfails := foldlM_eq_error.mpr
        ⟨_, _, _, _, hsplit, hfirst, SignedSums.add_eq_error.mpr (Or.inr ⟨hden, hoverflow, rfl⟩)⟩
      cases hsums.symm.trans hfails
  | scaleOutOfRange hlarge => exact absurd hlarge (not_lt.mpr hle)
  | denominatorOverflow hmem hlarge =>
      rw [← hscaleEq] at hlarge
      exact absurd hlarge (not_lt.mpr (le_of_scaledTerms coefficients hterms _ hmem))

/-! ### Accepted coefficients -/

section Succeeds

variable {β γ : Type} {computation : Encoding β} {next : β → Encoding γ} {before after : Allocator}
  {numerator denominator constant : Nat} {term : ScaledTerm}

/-- From every state the computation has a result. -/
def Succeeds (computation : Encoding β) : Prop :=
  ∀ before, ∃ result after, computation.Returns before result after

theorem succeeds_pure (result : β) : (pure result : Encoding β).Succeeds :=
  fun before => ⟨result, before, returns_pure result before⟩

theorem succeeds_lift (action : StateM Allocator β) : (liftM action : Encoding β).Succeeds :=
  fun before => ⟨_, _, returns_lift.mpr (rfl : action.run before = ((action.run before).1, (action.run before).2))⟩

theorem Succeeds.bind (h : computation.Succeeds) (h' : ∀ result, (next result).Succeeds) :
    (computation >>= next).Succeeds := by
  intro before
  obtain ⟨result, middle, hfirst⟩ := h before
  obtain ⟨final, after, hsecond⟩ := h' result middle
  exact ⟨final, after, returns_bind.mpr ⟨result, middle, hfirst, hsecond⟩⟩

theorem Succeeds.ne_error (h : computation.Succeeds) {error : Error} :
    computation.run.run before ≠ (.error error, after) := by
  intro herror
  obtain ⟨result, last, hreturns⟩ := h before
  cases hreturns.symm.trans herror

/-- The constant of a positive denominator is there afterwards. -/
theorem exists_constant (hpos : 0 < denominator) (before : Allocator) :
    ∃ index defining after, (Encoding.constant denominator).Returns before (index, defining) after ∧
      after.constants.get? denominator = some index := by
  rcases hknown : before.constants.get? denominator with _ | index
  · obtain ⟨rest, middle, hrest⟩ : ∃ rest middle, (multiple (denominator - 1) (.atom (before.counter + 1))).run
        { before with counter := before.counter + 1 } = (rest, middle) :=
      ⟨_, _, rfl⟩
    exact ⟨_, _, _, (returns_constant_of_none hknown).mpr (returns_defineConstant hpos hrest),
      (Memo.get?_insert before.constants denominator (before.counter + 1) denominator).trans (if_pos rfl)⟩
  · exact ⟨index, [], before, returns_constant_of_some hknown, hknown⟩

/-- A fraction of at most one can be read off its constant. -/
theorem exists_multiplyConstant (hconstant : before.constants.get? denominator = some constant)
    (hle : numerator ≤ denominator) :
    ∃ modsat after, (multiplyConstant numerator denominator).Returns before modsat after := by
  simp only [returns_multiplyConstant hconstant]
  split_ifs with htwo hzero hlog hwhole
  · exact succeeds_lift _ before
  · exact ((succeeds_lift _).bind fun _ => succeeds_pure _) before
  · exact succeeds_pure _ before
  · exact ((succeeds_lift _).bind fun _ => succeeds_pure _) before
  · rcases reach_of_le hle with htwo' | hlog' | hwhole'
    · exact absurd htwo' htwo
    · exact absurd hlog' hlog
    · exact absurd hwhole' hwhole

theorem succeeds_inputTerm (hinput : term.input ≤ variableMax) (constant : Nat) (definition : List Formula) :
    (inputTerm term constant definition).Succeeds := by
  rw [inputTerm, if_neg (not_lt.mpr hinput)]
  refine (succeeds_lift _).bind fun aux => (succeeds_lift _).bind fun large => ?_
  split_ifs
  · exact succeeds_pure _
  · exact (succeeds_lift _).bind fun _ => succeeds_pure _
  · exact (succeeds_lift _).bind fun _ => succeeds_pure _

theorem succeeds_termPart {inputs : Nat} (h : Fits inputs term) : (termPart term).Succeeds := by
  intro before
  obtain ⟨index, defining, middle, hconstant, hget⟩ := exists_constant h.denominator_pos before
  by_cases hinput : term.input = 0
  · obtain ⟨product, after, hproduct⟩ := exists_multiplyConstant hget h.numerator_le
    refine ⟨⟨product.phi, defining ++ product.defining⟩, after, returns_bind.mpr ⟨_, middle, hconstant, ?_⟩⟩
    simp only [if_pos hinput]
    exact returns_bind.mpr ⟨product, after, hproduct, returns_pure _ _⟩
  · obtain ⟨part, after, hpart⟩ := succeeds_inputTerm h.input_le_max index defining middle
    refine ⟨part, after, returns_bind.mpr ⟨_, middle, hconstant, ?_⟩⟩
    simp only [if_neg hinput]
    exact hpart

theorem succeeds_addTerm {inputs : Nat} (h : Fits inputs term) (group : Modsat) : (addTerm group term).Succeeds := by
  rw [addTerm]
  split_ifs
  · exact succeeds_pure _
  · exact (succeeds_termPart h).bind fun _ => succeeds_pure _

theorem succeeds_foldlM_addTerm {inputs : Nat} (terms : List ScaledTerm) (h : ∀ term ∈ terms, Fits inputs term) :
    ∀ group, (terms.foldlM addTerm group).Succeeds := by
  induction terms with
  | nil => exact succeeds_pure
  | cons term terms ih =>
      intro group
      obtain ⟨hterm, hrest⟩ := List.forall_mem_cons.mp h
      rw [List.foldlM_cons]
      exact (succeeds_addTerm hterm group).bind (ih hrest)

theorem succeeds_group {inputs : Nat} {terms : List ScaledTerm} (h : ∀ term ∈ terms, Fits inputs term) :
    (group terms).Succeeds := by
  rw [group]
  split_ifs
  · exact (succeeds_lift _).bind fun _ => succeeds_pure _
  · exact succeeds_foldlM_addTerm terms h _

theorem succeeds_ofTerms {inputs : Nat} (scale : Nat) {terms : List ScaledTerm}
    (h : ∀ term ∈ terms, Fits inputs term) : (ofTerms scale terms).Succeeds :=
  (succeeds_group fun term hterm => h term (List.mem_of_mem_filter hterm)).bind fun _ =>
    (succeeds_group fun term hterm => h term (List.mem_of_mem_filter hterm)).bind fun _ =>
      (succeeds_lift _).bind fun _ => succeeds_pure _

end Succeeds

/-- Accepted coefficients have terms that fit. -/
theorem fits_of_prepare (hdens : ∀ coefficient ∈ coefficients, 0 ≤ coefficient.den)
    (hlength : coefficients.length ≤ 2 ^ 32) (hnonzero : ∃ coefficient ∈ coefficients, coefficient.num ≠ 0)
    {scale : Nat} {terms : List ScaledTerm} (h : prepare coefficients = .ok (scale, terms)) :
    ∀ term ∈ terms, Fits variableMax term := by
  have hpos : ∀ coefficient ∈ coefficients, 0 < coefficient.den := by
    intro coefficient hmem
    refine lt_of_le_of_ne (hdens coefficient hmem) fun hzero => ?_
    exact not_refuses_of_prepare h _ (.zeroDenominator hmem hzero.symm)
  have hnot : ¬ coefficients.all Fraction.isZero = true := by
    obtain ⟨coefficient, hmem, hnum⟩ := hnonzero
    intro hall
    exact hnum (beq_iff_eq.mp (List.all_eq_true.mp hall coefficient hmem))
  exact (prepare_eq_ok (fun coefficient hmem => (hpos coefficient hmem).ne') hnot hlength le_rfl h).fits

/-- Coefficients that are all zero never fail, and others fail exactly in the checks, with the state as it was. -/
theorem run_encode_eq_error (hdens : ∀ coefficient ∈ coefficients, 0 ≤ coefficient.den)
    (hlength : coefficients.length ≤ 2 ^ 32) {before after : Allocator} {error : Error} :
    (encode coefficients).run.run before = (.error error, after) ↔
      (∃ coefficient ∈ coefficients, coefficient.num ≠ 0) ∧ after = before ∧
        ∃ fault, error = .encoding fault ∧ prepare coefficients = .error fault := by
  have hall : (∃ coefficient ∈ coefficients, coefficient.num ≠ 0) ↔ ¬ coefficients.all Fraction.isZero = true := by
    simp [Fraction.isZero]
  rw [encode, hall]
  by_cases hzero : coefficients.all Fraction.isZero = true
  · rw [if_pos hzero]
    exact iff_of_false ((succeeds_lift _).bind fun _ => succeeds_pure _).ne_error fun h => h.1 hzero
  · rw [if_neg hzero]
    rcases hprepare : prepare coefficients with fault | ⟨scale, terms⟩
    · constructor
      · intro h
        cases h
        exact ⟨hzero, rfl, fault, rfl, rfl⟩
      · rintro ⟨-, rfl, other, rfl, hfault⟩
        cases hfault
        rfl
    · have hfits := fits_of_prepare hdens hlength (hall.mpr hzero) hprepare
      refine iff_of_false (succeeds_ofTerms scale hfits).ne_error ?_
      rintro ⟨-, -, _, -, hfault⟩
      cases hfault

/-- Whatever the state of allocation, a call on coefficients fails exactly if they are not all zero and refused, and
then for a reason of refusal and with the state as it was. Accepted coefficients have fractions of at most one. -/
theorem encode_fails_iff_refuses (hdens : ∀ coefficient ∈ coefficients, 0 ≤ coefficient.den)
    (hlength : coefficients.length ≤ 2 ^ 32) (before : Allocator) :
    ((∃ error after, (encode coefficients).run.run before = (.error error, after)) ↔
      (∃ coefficient ∈ coefficients, coefficient.num ≠ 0) ∧ ∃ fault, Refuses coefficients fault) ∧
    (∀ error after, (encode coefficients).run.run before = (.error error, after) →
      after = before ∧ ∃ fault, error = .encoding fault ∧ Refuses coefficients fault) ∧
    ((∃ coefficient ∈ coefficients, coefficient.num ≠ 0) → ∀ scale terms, prepare coefficients = .ok (scale, terms) →
      ∀ term ∈ terms, 0 < term.denominator ∧ term.numerator ≤ term.denominator) := by
  refine ⟨⟨?_, ?_⟩, fun error after herror => ?_, fun hnonzero scale terms hprepare term hterm => ?_⟩
  · rintro ⟨error, after, herror⟩
    obtain ⟨hnonzero, -, fault, -, hfault⟩ := (run_encode_eq_error hdens hlength).mp herror
    exact ⟨hnonzero, fault, prepare_eq_error hfault⟩
  · rintro ⟨hnonzero, fault, hrefuses⟩
    rcases hprepare : prepare coefficients with other | ⟨scale, terms⟩
    · exact ⟨_, before, (run_encode_eq_error hdens hlength).mpr ⟨hnonzero, rfl, other, rfl, hprepare⟩⟩
    · exact absurd hrefuses (not_refuses_of_prepare hprepare fault)
  · obtain ⟨-, hafter, fault, heq, hfault⟩ := (run_encode_eq_error hdens hlength).mp herror
    exact ⟨hafter, fault, heq, prepare_eq_error hfault⟩
  · have hfits := fits_of_prepare hdens hlength hnonzero hprepare term hterm
    exact ⟨hfits.denominator_pos, hfits.numerator_le⟩

/-- Four unit fractions with large denominators that have no factor in common. -/
def huge : List Fraction :=
  [⟨1, 999999999989⟩, ⟨1, 999999999961⟩, ⟨1, 999999999959⟩, ⟨1, 999999999937⟩]

/-- The sum of `huge` goes out of range, and nothing is handed out for it. -/
theorem encode_fails_iff_refuses_huge :
    ∃ error, (encode huge).run.run (.ofDim 3) = (.error error, .ofDim 3) := by
  have hdens : ∀ coefficient ∈ huge, 0 ≤ coefficient.den := by decide
  obtain ⟨hiff, hstate, -⟩ := encode_fails_iff_refuses hdens (by decide) (.ofDim 3)
  have hfault : prepare huge = .error .sumOverflow := by decide +kernel
  obtain ⟨error, after, herror⟩ :=
    hiff.mpr ⟨⟨⟨1, 999999999989⟩, List.mem_cons_self, by decide⟩, _, prepare_eq_error hfault⟩
  exact ⟨error, (hstate error after herror).1 ▸ herror⟩

end Encoding

end ReluLogic
