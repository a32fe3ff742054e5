import ReluLogic.Proofs.Encoding.Determination
import ReluLogic.Proofs.Encoding.Session

/-!
The defining formulas of a run are conservative. Every point of the box extends to a valuation that satisfies them,
and the point alone determines the variables that occur in them, up to the zero variable: the unit of an input's
term is the input over the denominator, and what is built from units, constants and chains is determined by them.
-/

namespace ReluLogic

namespace Encoding

open Allocator (Step Encodes Twins Agree Settles)

variable {inputs : Nat} {before middle after : Allocator} {term : ScaledTerm} {v w : Nat → ℚ}

/-! ### Terms and groups -/

/-- The bindings of an input's term give its unit the same value under both valuations. -/
theorem Splits.unit_eq {constant : Nat} {whole : Modsat} {phi : Formula} (h : Splits before after term whole phi)
    (hscoped : before.Scoped) (hconstant : before.constants.get? term.denominator = some constant)
    (hinput : term.input ≤ variableMax) (hmax : after.counter ≤ variableMax) (htwins : before.Twins inputs v w)
    (hsame : v term.input = w term.input)
    (hv : Formula.Satisfies v (whole.defining ++ bindings term (before.counter + 1) constant whole))
    (hw : Formula.Satisfies w (whole.defining ++ bindings term (before.counter + 1) constant whole)) :
    v (before.counter + 1) = w (before.counter + 1) := by
  obtain ⟨hv, hvbindings⟩ := Formula.satisfies_append.mp hv
  obtain ⟨hw, hwbindings⟩ := Formula.satisfies_append.mp hw
  calc v (before.counter + 1)
      = v term.input / term.denominator :=
        (h.satisfies_bindings_iff hscoped hconstant hinput hmax htwins.left_unit htwins.left hv).mp hvbindings
    _ = w term.input / term.denominator := by rw [hsame]
    _ = w (before.counter + 1) :=
        ((h.satisfies_bindings_iff hscoped hconstant hinput hmax htwins.right_unit htwins.right hw).mp
          hwbindings).symm

theorem settles_inputTerm (h : before.Scoped) {constant : Nat}
    (hconstant : before.constants.get? term.denominator = some constant) (hfits : Fits inputs term)
    (hpos : 0 < term.numerator) (hinput : term.input ≠ 0) (hinputs : inputs ≤ before.counter)
    {definition : List Formula} {part : Part} (hrun : (inputTerm term constant definition).Returns before part after) :
    ∃ defining, part.defining = definition ++ defining ∧
      Settles inputs before after defining (part.formula :: defining) := by
  obtain ⟨whole, phi, _, hsplits, hrun'⟩ :=
    exists_splits constant h hpos hfits.numerator_le hfits.input_le_max definition
  obtain ⟨rfl, rfl⟩ := hrun.unique hrun'
  refine ⟨_, List.append_assoc _ _ _,
    hsplits.step h hconstant hfits.input_le_max (hfits.input_le.trans hinputs),
    zero_multiple hsplits.whole_run, fun hmax v w htwins hv hw => ?_⟩
  have hsame : v term.input = w term.input := htwins.inputs_eq _ hfits.input_le hinput
  have hunit := hsplits.unit_eq h hconstant hfits.input_le_max hmax htwins hsame hv hw
  obtain ⟨hv, -⟩ := Formula.satisfies_append.mp hv
  obtain ⟨hw, -⟩ := Formula.satisfies_append.mp hw
  have halike := Alike.atom (hsplits.index_le.trans hmax) htwins.left_unit htwins.right_unit hunit
  have hunitAtom : ∀ zero, (Formula.atom (before.counter + 1)).Within (Agree zero v w) :=
    fun _ => Formula.within_atom (Or.inr hunit)
  have hconstantAtom : (Formula.atom constant).Within (Agree after.zero v w) :=
    Formula.within_atom (htwins.agree _ fun _ _ hmeaning => (hmeaning.constants hconstant).1)
  obtain ⟨hwhole, hdefining⟩ :=
    List.forall_mem_cons.mp (agree_within_multiple hsplits.whole_run hmax halike (hunitAtom _) hv hw)
  refine List.forall_mem_cons.mpr ⟨hsplits.part_within.mono ?_, List.forall_mem_append.mpr ⟨hdefining, ?_⟩⟩
  · -- the formula of the term reads the unit and the variables behind it
    rintro index ⟨hlt, hle⟩
    rcases (Nat.succ_le_of_lt hlt).eq_or_lt with rfl | hlt
    · exact Or.inr hunit
    · exact agree_multiple hsplits.whole_run hmax halike hv hw hlt hle
  · exact List.forall_mem_cons.mpr ⟨hwhole.push (Formula.within_atom (Or.inr hsame)) _,
      List.forall_mem_singleton.mpr ((hunitAtom _).push hconstantAtom _)⟩

theorem settles_termPart (h : before.Scoped) (hfits : Fits inputs term) (hpos : 0 < term.numerator)
    (hinputs : inputs ≤ before.counter) {part : Part} (hrun : (termPart term).Returns before part after) :
    Settles inputs before after part.defining (part.formula :: part.defining) := by
  obtain ⟨index, definition, middle, hconstant, hrest⟩ := returns_termPart.mp hrun
  obtain ⟨_, _, _, hconstant', hstep, hget⟩ := exists_constant_eq h hfits.denominator_pos
  obtain ⟨heq, rfl⟩ := hconstant.unique hconstant'
  cases heq
  have hdefinition : Settles inputs before middle definition definition :=
    settles_constant h hfits.denominator_pos hconstant
  rcases hrest with ⟨-, product, hproduct, rfl⟩ | ⟨hinput, hterm⟩
  · exact hdefinition.behind (settles_multiplyConstant hstep.scope hget (reach_of_le hfits.numerator_le) hproduct)
  · obtain ⟨defining, hpart, hsettles⟩ := settles_inputTerm hstep.scope hget hfits hpos hinput
      (hinputs.trans hstep.counter_le) hterm
    rw [hpart]
    exact hdefinition.behind hsettles

/-- A group under construction stays determined. -/
theorem settles_addTerm {group result : Modsat} (h : Settles inputs before middle group.defining
    (group.phi :: group.defining)) (hfits : Fits inputs term) (hinputs : inputs ≤ before.counter)
    (hrun : (addTerm group term).Returns middle result after) :
    Settles inputs before after result.defining (result.phi :: result.defining) := by
  rcases returns_addTerm.mp hrun with ⟨-, rfl, rfl⟩ | ⟨hzero, part, hpart, rfl⟩
  · exact h
  · exact h.push (settles_termPart h.scope hfits (Nat.pos_of_ne_zero hzero) (hinputs.trans h.counter_le) hpart) _

theorem settles_foldlM_addTerm (hinputs : inputs ≤ before.counter) (terms : List ScaledTerm) :
    ∀ {middle : Allocator} {group result : Modsat}, Settles inputs before middle group.defining
      (group.phi :: group.defining) → (∀ term ∈ terms, Fits inputs term) →
        (terms.foldlM addTerm group).Returns middle result after →
          Settles inputs before after result.defining (result.phi :: result.defining) := by
  induction terms with
  | nil =>
      intro middle group result h _ hrun
      cases hrun
      exact h
  | cons term terms ih =>
      intro middle group result h hfits hrun
      obtain ⟨hfit, hrest⟩ := List.forall_mem_cons.mp hfits
      obtain ⟨added, next, hadded, hrun⟩ := returns_bind.mp hrun
      exact ih (settles_addTerm h hfit hinputs hadded) hrest hrun

theorem settles_group (h : before.Scoped) (hinputs : inputs ≤ before.counter) {terms : List ScaledTerm}
    (hfits : ∀ term ∈ terms, Fits inputs term) {modsat : Modsat}
    (hrun : (group terms).Returns before modsat after) :
    Settles inputs before after modsat.defining (modsat.phi :: modsat.defining) := by
  rcases returns_group.mp hrun with ⟨-, phi, hphi, rfl⟩ | ⟨-, hfold⟩
  · exact settles_zeroFormula h (returns_lift.mp hphi)
  · refine settles_foldlM_addTerm hinputs terms ?_ hfits hfold
    exact (Settles.of_step (.refl h) rfl).compose .empty fun _ => Formula.within_empty

/-! ### Pieces -/

theorem share_congr (h : ∀ input ≤ inputs, input ≠ 0 → v input = w input) (hinput : term.input ≤ inputs) :
    term.share v = term.share w := by
  rw [ScaledTerm.share, ScaledTerm.share, ScaledTerm.reads, ScaledTerm.reads]
  split_ifs with hzero
  · rfl
  · rw [h _ hinput hzero]

theorem settles_ofTerms (h : before.Scoped) (hinputs : inputs ≤ before.counter) {scale : Nat}
    {terms : List ScaledTerm} (hfits : ∀ term ∈ terms, Fits inputs term)
    (hpositive : ((terms.filter (!·.negative)).map ScaledTerm.ratio).sum ≤ 1)
    (hnegative : ((terms.filter (·.negative)).map ScaledTerm.ratio).sum ≤ 1) {modsat : Modsat}
    (hrun : (ofTerms scale terms).Returns before modsat after) :
    Settles inputs before after modsat.defining (modsat.phi :: modsat.defining) := by
  have hfits' : ∀ sign : ScaledTerm → Bool, ∀ term ∈ terms.filter sign, Fits inputs term :=
    fun _ term hterm => hfits term (List.mem_filter.mp hterm).1
  obtain ⟨positive, first, negative, second, scaled, hpositiveRun, hnegativeRun, hscaledRun, rfl⟩ :=
    returns_ofTerms.mp hrun
  obtain ⟨_, _, hpositiveRun', hp⟩ := exists_group_eq h hinputs _ (hfits' _) hpositive
  obtain ⟨rfl, rfl⟩ := hpositiveRun.unique hpositiveRun'
  obtain ⟨_, _, hnegativeRun', hn⟩ := exists_group_eq hp.scope (hinputs.trans hp.counter_le) _ (hfits' _) hnegative
  obtain ⟨rfl, rfl⟩ := hnegativeRun.unique hnegativeRun'
  refine settles_multiple ((settles_group h hinputs (hfits' _) hpositiveRun).push (settles_group hp.scope
    (hinputs.trans hp.counter_le) (hfits' _) hnegativeRun) .implication).negate (hp.push hn .implication).negate ?_
    (returns_lift.mp hscaledRun)
  intro v w htwins
  have hshares : ∀ sign : ScaledTerm → Bool,
      (terms.filter sign).map (·.share v) = (terms.filter sign).map (·.share w) :=
    fun sign => List.map_congr_left fun term hterm => share_congr htwins.inputs_eq (hfits' sign term hterm).input_le
  simp only [hshares]

/-- A call that succeeds determines the variables of its formulas. -/
theorem settles_encode (h : before.Scoped) (hinputs : inputs ≤ before.counter) (hmax : inputs ≤ variableMax)
    {coefficients : List Fraction} (hdens : ∀ coefficient ∈ coefficients, 0 < coefficient.den)
    (hlength : coefficients.length ≤ inputs + 1) {modsat : Modsat}
    (hrun : (encode coefficients).Returns before modsat after) :
    Settles inputs before after modsat.defining (modsat.phi :: modsat.defining) := by
  rcases returns_encode.mp hrun with ⟨-, phi, hphi, rfl⟩ | ⟨hzero, scale, terms, hprepare, hterms⟩
  · exact settles_zeroFormula h (returns_lift.mp hphi)
  · have hprepared := prepare_eq_ok (fun coefficient hmem => (hdens coefficient hmem).ne') hzero hlength hmax hprepare
    exact settles_ofTerms h hinputs hprepared.fits hprepared.positive_le hprepared.negative_le hterms

/-! ### Runs -/

variable {dim : Nat} {request : Request} {requests : List Request} {calls : List Call}

theorem settles_serve (h : before.Scoped) (hdim : dim ≤ before.counter) (hmax : dim ≤ variableMax)
    (hproper : request.Proper dim) :
    Settles dim before (serve before request).2 (defining (serve before request).1)
      (defining (serve before request).1) := by
  cases request with
  | encode coefficients =>
      rw [serve]
      rcases hrun : (encode coefficients).run.run before with ⟨error | modsat, after⟩
      · obtain ⟨_, hfails⟩ | ⟨_, _, hreturns, -⟩ := encode_cases h hdim hmax hproper.2 hproper.1
        · cases hrun.symm.trans hfails
          exact .of_step (.refl h) rfl
        · cases hrun.symm.trans hreturns
      · rw [defining_singleton]
        exact (settles_encode h hdim hmax hproper.2 hproper.1 hrun).mono (List.subset_cons_self _ _)
  | jumpTo target =>
      rw [serve, Allocator.jumpTo]
      split_ifs with hless
      · exact .of_step (.refl h) rfl
      · exact .of_step (.advance h (not_lt.mp hless)) rfl

theorem settles_serveAll (hmax : dim ≤ variableMax) (requests : List Request) :
    ∀ {before : Allocator}, before.Scoped → dim ≤ before.counter → (∀ request ∈ requests, request.Proper dim) →
      Settles dim before (serveAll requests before).2 (defining (serveAll requests before).1)
        (defining (serveAll requests before).1) := by
  induction requests with
  | nil => exact fun h _ _ => .of_step (.refl h) rfl
  | cons request requests ih =>
      intro before h hdim hproper
      obtain ⟨hfirst, hrest⟩ := List.forall_mem_cons.mp hproper
      have hserve := settles_serve h hdim hmax hfirst
      rw [serveAll_cons, defining_append]
      exact hserve.trans (ih hserve.scope (hdim.trans hserve.counter_le) hrest)

/-- A valuation with the inputs at a point under which all formulas of a run hold. -/
structure Satisfying (dim : Nat) (point : List ℚ) (calls : List Call) (valuation : Nat → ℚ) : Prop where
  unit : UnitValued valuation
  inputs : inputPoint dim valuation = point
  holds : ∀ call ∈ calls, ∀ formula ∈ call.modsat.defining, formula.evaluate valuation = .ok (some 1)

theorem twins_ofDim {point : List ℚ} (hv : Satisfying dim point calls v) (hw : Satisfying dim point calls w) :
    (Allocator.ofDim dim).Twins dim v w where
  left_unit := hv.unit
  right_unit := hw.unit
  left := Allocator.meaning_ofDim dim v
  right := Allocator.meaning_ofDim dim w
  inputs_eq input hle hne := by
    have hsame := List.map_inj_left.mp (hv.inputs.trans hw.inputs.symm) (input - 1) (List.mem_range.mpr (by omega))
    rwa [Nat.sub_add_cancel (Nat.one_le_iff_ne_zero.mpr hne)] at hsame

/-- The defining formulas are conservative. For every run of proper requests to a new allocator that stays within the
range of variables, and every point of the box, there is a valuation with the inputs at the point under which all
formulas returned hold, and any two agree on every variable that occurs in these formulas, except the zero
variable. -/
theorem serveAll_conservative (dim : Nat) {requests : List Request}
    (hproper : ∀ request ∈ requests, request.Proper dim) {calls : List Call} {after : Allocator}
    (hrun : serveAll requests (.ofDim dim) = (calls, after)) (hmax : after.counter ≤ variableMax) {point : List ℚ}
    (hpoint : point ∈ unitBox dim) :
    (∃ valuation, Satisfying dim point calls valuation) ∧
      ∀ v w, Satisfying dim point calls v → Satisfying dim point calls w → ∀ call ∈ calls,
        ∀ formula ∈ call.modsat.defining, ∀ index, formula.Mentions index → after.zero ≠ some index →
          v index = w index := by
  have hanswers := answers_ofDim hproper hrun hmax
  constructor
  · obtain ⟨valuation, hunit, hinputs, hsatisfies⟩ := exists_satisfies hanswers hmax hpoint
    exact ⟨valuation, hunit, hinputs, satisfies_defining_iff.mp hsatisfies⟩
  · intro v w hv hw call hcall formula hformula index hmentions hzero
    rcases hanswers with rfl | ⟨hdim, -⟩
    · exact absurd hcall List.not_mem_nil
    · have hsettles := settles_serveAll hdim requests (Allocator.scoped_ofDim dim) (le_min le_rfl hdim) hproper
      rw [hrun] at hsettles
      have hwithin := hsettles.within hmax (twins_ofDim hv hw) (satisfies_defining_iff.mpr hv.holds)
        (satisfies_defining_iff.mpr hw.holds) formula (List.mem_flatMap.mpr ⟨call, hcall, hformula⟩)
      exact (Formula.within_iff.mp hwithin index hmentions).resolve_left hzero

/-- At three quarters every valuation that satisfies the formulas of `halves` gives the unit of the second input's
term three eighths. -/
theorem serveAll_conservative_halves :
    (∃ valuation, Satisfying 1 [3 / 4] (serveAll halves (.ofDim 1)).1 valuation) ∧
      ∀ valuation, Satisfying 1 [3 / 4] (serveAll halves (.ofDim 1)).1 valuation → valuation 13 = 3 / 8 := by
  have hpoint : [3 / 4] ∈ unitBox 1 := ⟨rfl, by norm_num⟩
  obtain ⟨hexists, hdetermined⟩ := serveAll_conservative 1 (show ∀ request ∈ halves, request.Proper 1 by decide)
    Prod.mk.eta.symm (by decide +kernel) hpoint
  have hdegrees : Satisfying 1 [3 / 4] (serveAll halves (.ofDim 1)).1 (halvesDegrees.getD · 0) :=
    ⟨unitValued_getD (by decide +kernel), by decide +kernel, by decide +kernel⟩
  obtain ⟨call, hcall, formula, hformula, hclause⟩ : ∃ call ∈ (serveAll halves (.ofDim 1)).1,
      ∃ formula ∈ call.modsat.defining, .clause [13] ∈ formula.units := by decide +kernel
  refine ⟨hexists, fun valuation hvaluation => ?_⟩
  exact hdetermined valuation _ hvaluation hdegrees call hcall formula hformula 13
    ⟨[13], hclause, 13, List.mem_singleton_self 13, rfl⟩ (by decide +kernel)

end Encoding

end ReluLogic
