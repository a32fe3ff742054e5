import ReluLogic.Proofs.Encoding.Growth
import ReluLogic.Proofs.Encoding.Piece

/-!
Whole runs of one allocator. A run serves requests in order; a call that fails returns nothing, and what it took
stays taken. Under every valuation that satisfies the formulas returned so far, each formula returned has the
value of its piece, and every valuation of the inputs extends to one that satisfies them.
-/

namespace ReluLogic

/-- The values of the inputs of a network as a point. -/
def inputPoint (dim : Nat) (valuation : Nat → ℚ) : List ℚ :=
  (List.range dim).map fun input => valuation (input + 1)

theorem length_inputPoint (dim : Nat) (valuation : Nat → ℚ) : (inputPoint dim valuation).length = dim := by
  rw [inputPoint, List.length_map, List.length_range]

/-- The valuation that gives the inputs the coordinates of a point, and every other variable zero. -/
def inputValuation (point : List ℚ) (index : Nat) : ℚ :=
  point.getD (index - 1) 0

theorem unitValued_inputValuation {dim : Nat} {point : List ℚ} (h : point ∈ unitBox dim) :
    UnitValued (inputValuation point) :=
  fun index => unitValued_getD h.2 (index - 1)

theorem inputPoint_inputValuation (point : List ℚ) : inputPoint point.length (inputValuation point) = point := by
  refine List.ext_getElem (length_inputPoint _ _) fun place hplace hplace' => ?_
  simp only [inputPoint, List.getElem_map, List.getElem_range, inputValuation, Nat.add_sub_cancel,
    List.getD_eq_getElem _ _ hplace']

theorem inputPoint_congr {dim : Nat} {valuation other : Nat → ℚ}
    (h : ∀ index ≤ dim, other index = valuation index) : inputPoint dim other = inputPoint dim valuation :=
  List.map_congr_left fun _ hinput => h _ (List.mem_range.mp hinput)

/-- The affine value of coefficients behind the constant term pairs them with the inputs from some place on. -/
theorem affineFrom_eq_sum (valuation : Nat → ℚ) (coefficients : List Fraction) :
    ∀ {input count : Nat}, coefficients.length ≤ count →
      affineFrom (input + 1) valuation coefficients =
        (List.zipWith (· * ·) (coefficients.map Fraction.value)
          ((List.range' input count).map fun place => valuation (place + 1))).sum := by
  induction coefficients with
  | nil => exact fun _ => rfl
  | cons coefficient coefficients ih =>
      intro input count hlength
      rw [List.length_cons] at hlength
      obtain ⟨count, rfl⟩ := Nat.exists_eq_add_of_le' (Nat.one_le_of_lt hlength)
      rw [affineFrom, if_neg (Nat.succ_ne_zero _), ih (Nat.le_of_succ_le_succ hlength), List.range'_succ,
        List.map_cons, List.map_cons, List.zipWith_cons_cons, List.sum_cons]

theorem affineFrom_zero_eq {dim : Nat} {coefficients : List Fraction} (hlength : coefficients.length ≤ dim + 1)
    (valuation : Nat → ℚ) :
    affineFrom 0 valuation coefficients =
      Affine.evaluate ⟨coefficients.map Fraction.value⟩ (inputPoint dim valuation) := by
  rw [Affine.evaluate_eq, inputPoint, List.range_eq_range']
  cases coefficients with
  | nil => exact (add_zero _).symm
  | cons constant linear =>
      rw [affineFrom, if_pos rfl, mul_one, affineFrom_eq_sum valuation linear (Nat.le_of_succ_le_succ hlength)]
      rfl

namespace Encoding

open Allocator (Step Encodes)

inductive Request where
  | encode (coefficients : List Fraction)
  | jumpTo (target : Nat)
  deriving Repr, DecidableEq

/-- A call that succeeded: the coefficients and their encoding. -/
structure Call where
  coefficients : List Fraction
  modsat : Modsat
  deriving Repr, DecidableEq

/-- A request is answered; a request that fails returns nothing. -/
def serve (before : Allocator) : Request → List Call × Allocator
  | .encode coefficients =>
    match (encode coefficients).run.run before with
    | (.ok modsat, after) => ([⟨coefficients, modsat⟩], after)
    | (.error _, after) => ([], after)
  | .jumpTo target =>
    match before.jumpTo target with
    | .ok after => ([], after)
    | .error _ => ([], before)

/-- Requests are answered in order. -/
def serveAll : List Request → Allocator → List Call × Allocator
  | [], before => ([], before)
  | request :: rest, before =>
    let (calls, middle) := serve before request
    let (others, after) := serveAll rest middle
    (calls ++ others, after)

theorem serveAll_cons (request : Request) (rest : List Request) (before : Allocator) :
    serveAll (request :: rest) before =
      ((serve before request).1 ++ (serveAll rest (serve before request).2).1,
        (serveAll rest (serve before request).2).2) :=
  rfl

def defining (calls : List Call) : List Formula :=
  calls.flatMap (·.modsat.defining)

/-- A request over at most `dim` inputs with positive denominators. -/
def Request.Proper (dim : Nat) : Request → Prop
  | .encode coefficients =>
    coefficients.length ≤ dim + 1 ∧ ∀ coefficient ∈ coefficients, 0 < coefficient.den
  | .jumpTo _ => True

instance (dim : Nat) : DecidablePred (Request.Proper dim)
  | .encode coefficients => inferInstanceAs (Decidable (coefficients.length ≤ dim + 1 ∧
      ∀ coefficient ∈ coefficients, 0 < coefficient.den))
  | .jumpTo _ => inferInstanceAs (Decidable True)

variable {dim : Nat} {before middle after : Allocator} {request : Request} {requests : List Request}
  {calls others : List Call}

theorem defining_append (calls others : List Call) : defining (calls ++ others) = defining calls ++ defining others :=
  List.flatMap_append

theorem defining_singleton (call : Call) : defining [call] = call.modsat.defining :=
  List.flatMap_singleton _ _

theorem satisfies_defining_iff {valuation : Nat → ℚ} :
    Formula.Satisfies valuation (defining calls) ↔
      ∀ call ∈ calls, ∀ formula ∈ call.modsat.defining, formula.Holds valuation :=
  List.forall_mem_flatMap

/-! ### Calls of a run -/

/-- A step that answers calls, each with a formula for the value of its piece. -/
structure Answers (before after : Allocator) (calls : List Call) : Prop
    extends Step before after (defining calls) where
  total : ∀ call ∈ calls, call.modsat.phi.Total
  denotes : after.counter ≤ variableMax → ∀ ⦃valuation⦄, UnitValued valuation → before.Meaning valuation →
    Formula.Satisfies valuation (defining calls) → ∀ call ∈ calls,
      call.modsat.phi.Denotes valuation (clamp (affineFrom 0 valuation call.coefficients))

theorem Answers.of_step (h : Step before after []) : Answers before after [] where
  toStep := h
  total _ hmem := absurd hmem List.not_mem_nil
  denotes _ _ _ _ _ _ hmem := absurd hmem List.not_mem_nil

theorem Answers.of_encodes {coefficients : List Fraction} {modsat : Modsat}
    (h : Encodes before after modsat fun valuation => clamp (affineFrom 0 valuation coefficients)) :
    Answers before after [⟨coefficients, modsat⟩] := by
  refine ⟨?_, List.forall_mem_singleton.mpr h.total, fun hmax valuation hunit hmeaning hsatisfies => ?_⟩
  · rw [defining_singleton]
    exact h.toStep
  · rw [defining_singleton] at hsatisfies
    exact List.forall_mem_singleton.mpr (h.denotes hmax hunit hmeaning hsatisfies)

theorem Answers.trans (h : Answers before middle calls) (h' : Answers middle after others) :
    Answers before after (calls ++ others) := by
  refine ⟨?_, List.forall_mem_append.mpr ⟨h.total, h'.total⟩, fun hmax valuation hunit hmeaning hsatisfies => ?_⟩
  · rw [defining_append]
    exact h.toStep.trans h'.toStep
  · rw [defining_append] at hsatisfies
    obtain ⟨hfirst, hsecond⟩ := Formula.satisfies_append.mp hsatisfies
    have hmax' := h'.counter_le.trans hmax
    exact List.forall_mem_append.mpr ⟨h.denotes hmax' hunit hmeaning hfirst,
      h'.denotes hmax hunit (h.sound hmax' hunit hmeaning hfirst) hsecond⟩

theorem answers_serve (h : before.Scoped) (hdim : dim ≤ before.counter) (hmax : dim ≤ variableMax)
    (hproper : request.Proper dim) : Answers before (serve before request).2 (serve before request).1 := by
  cases request with
  | encode coefficients =>
      rcases encode_cases h hdim hmax hproper.2 hproper.1 with ⟨error, hrun⟩ | ⟨modsat, after, hrun, hencodes⟩
      · rw [serve, hrun]
        exact .of_step (.refl h)
      · rw [serve, hrun]
        exact .of_encodes hencodes
  | jumpTo target =>
      rw [serve, Allocator.jumpTo]
      split_ifs with hless
      · exact .of_step (.refl h)
      · exact .of_step (.advance h (not_lt.mp hless))

/-- A run of proper requests answers its calls. -/
theorem answers_serveAll (hmax : dim ≤ variableMax) (requests : List Request) :
    ∀ {before : Allocator}, before.Scoped → dim ≤ before.counter → (∀ request ∈ requests, request.Proper dim) →
      Answers before (serveAll requests before).2 (serveAll requests before).1 := by
  induction requests with
  | nil => exact fun h _ _ => .of_step (.refl h)
  | cons request requests ih =>
      intro before h hdim hproper
      obtain ⟨hfirst, hrest⟩ := List.forall_mem_cons.mp hproper
      have hserve := answers_serve h hdim hmax hfirst
      exact hserve.trans (ih hserve.scope (hdim.trans hserve.counter_le) hrest)

/-! ### Inputs beyond the range of variables -/

theorem serve_advances (before : Allocator) (request : Request) :
    (serve before request).2 = before ∨ before.counter < (serve before request).2.counter := by
  cases request with
  | encode coefficients =>
      have hadvances := advances_encode coefficients before
      rw [serve]
      rcases hrun : (encode coefficients).run.run before with ⟨error | modsat, after⟩ <;> rw [hrun] at hadvances <;>
        exact hadvances
  | jumpTo target =>
      rw [serve, Allocator.jumpTo]
      split_ifs with hless
      · exact Or.inl rfl
      · rcases (not_lt.mp hless).eq_or_lt with rfl | hlt
        · exact Or.inl rfl
        · exact Or.inr hlt

theorem counter_le_serveAll (requests : List Request) :
    ∀ before : Allocator, before.counter ≤ (serveAll requests before).2.counter := by
  induction requests with
  | nil => exact fun _ => le_rfl
  | cons request requests ih =>
      intro before
      refine le_trans ?_ (ih (serve before request).2)
      rcases serve_advances before request with heq | hlt
      · rw [heq]
      · exact hlt.le

/-- Where nothing is remembered, a run that leaves the counter where it is has no call that succeeds. -/
theorem serveAll_eq_nil (requests : List Request) :
    ∀ {before : Allocator}, before.zero = none → before.constants = .empty →
      (serveAll requests before).2.counter ≤ before.counter → (serveAll requests before).1 = [] := by
  induction requests with
  | nil => exact fun _ _ _ => rfl
  | cons request requests ih =>
      intro before hzero hconstants hcounter
      have hstays : (serve before request).2 = before := by
        refine (serve_advances before request).resolve_right fun hlt => ?_
        exact absurd ((hlt.trans_le (counter_le_serveAll requests _)).trans_le hcounter) (lt_irrefl _)
      have hnone : (serve before request).1 = [] := by
        cases request with
        | encode coefficients =>
            rcases hrun : (encode coefficients).run.run before with ⟨error | modsat, after⟩
            · rw [serve, hrun]
            · rw [serve, hrun] at hstays
              have hlt := takes_encode coefficients hzero hconstants hrun
              rw [show after = before from hstays] at hlt
              exact absurd hlt (lt_irrefl _)
        | jumpTo target =>
            rw [serve]
            cases before.jumpTo target <;> rfl
      rw [serveAll_cons, hnone, hstays, ih hzero hconstants]
      · rfl
      · exact (congrArg (fun state => (serveAll requests state).2.counter) hstays).symm.le.trans hcounter

/-- A run from a new allocator answers its calls: if there are more inputs than variables none succeeds. -/
theorem answers_ofDim (hproper : ∀ request ∈ requests, request.Proper dim)
    (hrun : serveAll requests (.ofDim dim) = (calls, after)) (hmax : after.counter ≤ variableMax) :
    calls = [] ∨ dim ≤ variableMax ∧ Answers (.ofDim dim) after calls := by
  rcases le_or_gt dim variableMax with hdim | hdim
  · have hanswers := answers_serveAll hdim requests (Allocator.scoped_ofDim dim) (le_min le_rfl hdim) hproper
    rw [hrun] at hanswers
    exact Or.inr ⟨hdim, hanswers⟩
  · have hnone := @serveAll_eq_nil requests (.ofDim dim) rfl rfl
    rw [hrun] at hnone
    exact Or.inl (hnone (hmax.trans (min_eq_right hdim.le).ge))

/-- Every point of the box extends to a valuation under which all formulas of a run hold. -/
theorem exists_satisfies {point : List ℚ}
    (h : calls = [] ∨ dim ≤ variableMax ∧ Answers (.ofDim dim) after calls) (hmax : after.counter ≤ variableMax)
    (hpoint : point ∈ unitBox dim) :
    ∃ valuation, UnitValued valuation ∧ inputPoint dim valuation = point ∧
      Formula.Satisfies valuation (defining calls) := by
  have hunit := unitValued_inputValuation hpoint
  have hinputs : inputPoint dim (inputValuation point) = point := hpoint.1 ▸ inputPoint_inputValuation point
  rcases h with rfl | ⟨hdim, hanswers⟩
  · exact ⟨inputValuation point, hunit, hinputs, Formula.satisfies_nil⟩
  · obtain ⟨extended, hunit', hagree, -, hsatisfies⟩ :=
      hanswers.complete hmax hunit (Allocator.meaning_ofDim dim _)
    refine ⟨extended, hunit', ?_, hsatisfies⟩
    rw [inputPoint_congr fun index hindex => hagree index (le_min hindex (hindex.trans hdim)), hinputs]

/-- A call that succeeded was asked for. -/
theorem encode_mem_of_mem_serveAll (requests : List Request) :
    ∀ {before : Allocator} {call : Call}, call ∈ (serveAll requests before).1 →
      .encode call.coefficients ∈ requests := by
  induction requests with
  | nil => exact fun hcall => absurd hcall List.not_mem_nil
  | cons request requests ih =>
      intro before call hcall
      rw [serveAll_cons] at hcall
      rcases List.mem_append.mp hcall with hcall | hcall
      · cases request with
        | encode coefficients =>
            rcases hrun : (encode coefficients).run.run before with ⟨error | modsat, after⟩
            · rw [serve, hrun] at hcall
              exact absurd hcall List.not_mem_nil
            · rw [serve, hrun] at hcall
              cases List.mem_singleton.mp hcall
              exact List.mem_cons_self
        | jumpTo target =>
            rcases hrun : before.jumpTo target with error | after <;> rw [serve, hrun] at hcall <;>
              exact absurd hcall List.not_mem_nil
      · exact List.mem_cons_of_mem _ (ih hcall)

/-- The encoding forces the value of each piece. For every run of proper requests to a new allocator that stays
within the range of variables, a valuation under which all formulas returned hold gives the formula of each call
the affine value of its coefficients at the inputs, cut off to the unit interval. -/
theorem serveAll_forces_values (dim : Nat) {requests : List Request}
    (hproper : ∀ request ∈ requests, request.Proper dim) {calls : List Call} {after : Allocator}
    (hrun : serveAll requests (.ofDim dim) = (calls, after)) (hmax : after.counter ≤ variableMax)
    {valuation : Nat → ℚ} (hunit : UnitValued valuation)
    (hdefined : ∀ call ∈ calls, ∀ formula ∈ call.modsat.defining, formula.evaluate valuation = .ok (some 1)) :
    ∀ call ∈ calls, call.modsat.phi.evaluate valuation = .ok (some (min 1 (max 0
      (Affine.evaluate ⟨call.coefficients.map Fraction.value⟩ (inputPoint dim valuation))))) := by
  intro call hcall
  rcases answers_ofDim hproper hrun hmax with rfl | ⟨-, hanswers⟩
  · exact absurd hcall List.not_mem_nil
  · have hsatisfies : Formula.Satisfies valuation (defining calls) := satisfies_defining_iff.mpr hdefined
    have hasked : .encode call.coefficients ∈ requests := by
      rw [show calls = (serveAll requests (.ofDim dim)).1 from (congrArg Prod.fst hrun).symm] at hcall
      exact encode_mem_of_mem_serveAll requests hcall
    rw [← affineFrom_zero_eq (hproper _ hasked).1]
    exact hanswers.denotes hmax hunit (Allocator.meaning_ofDim dim valuation) hsatisfies call hcall

/-- Two pieces over one input, with a jump of the counter between them. -/
def halves : List Request :=
  [.encode [⟨-1, 2⟩, .one], .jumpTo 9, .encode [⟨1, 3⟩, ⟨1, 2⟩]]

/-- The degrees that the input three quarters gives to the variables of `halves`. -/
def halvesDegrees : List ℚ :=
  [0, 3 / 4, 1, 0, 3 / 4, 1 / 2, 0, 0, 0, 0, 1 / 3, 1 / 3, 2 / 3, 3 / 8, 3 / 8, 3 / 4]

/-- The second piece reads the constant of one half that the first one defined. -/
theorem serveAll_forces_values_halves :
    (⟨[.clause [11, 13], .clause [-3, 3], .negation 1, .binary .implication 0 2, .negation 3]⟩ : Formula).evaluate
      (halvesDegrees.getD · 0) = .ok (some (17 / 24)) := by
  have hforced := serveAll_forces_values 1 (show ∀ request ∈ halves, request.Proper 1 by decide) Prod.mk.eta.symm
    (by decide +kernel) (unitValued_getD (show ∀ degree ∈ halvesDegrees, 0 ≤ degree ∧ degree ≤ 1 by decide +kernel))
    (by decide +kernel)
  have hsecond : ((serveAll halves (.ofDim 1)).1.map fun call => (call.coefficients, call.modsat.phi))[1]? = some
      ([⟨1, 3⟩, ⟨1, 2⟩],
        ⟨[.clause [11, 13], .clause [-3, 3], .negation 1, .binary .implication 0 2, .negation 3]⟩) := by
    decide +kernel
  obtain ⟨call, hcall, heq⟩ := List.mem_map.mp (List.mem_of_getElem? hsecond)
  obtain ⟨hcoefficients, hphi⟩ := Prod.mk.inj heq
  have hvalue := hforced call hcall
  rw [hphi, hcoefficients] at hvalue
  rw [hvalue]
  decide +kernel

end Encoding

end ReluLogic
