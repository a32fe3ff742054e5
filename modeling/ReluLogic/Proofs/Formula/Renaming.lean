import ReluLogic.Proofs.Formula.Tree

/-!
Renaming as a substitution. A renaming gives every variable one new name, and the renamed formula has under a valuation
the degree that the formula has where each variable takes the value of its new name. The number that comes back bounds
the new names of all variables that are no inputs. A variable that leaves the range of variables refuses the renaming as
a whole.
-/

namespace ReluLogic

namespace Renaming

variable {names : Renaming} {index largest : Nat} {literal : Int}

/-- The variables that become given ones. -/
def IsInput (names : Renaming) (index : Nat) : Prop :=
  1 ≤ index ∧ index ≤ names.inputs.length

instance : Decidable (names.IsInput index) :=
  inferInstanceAs (Decidable (_ ∧ _))

def name (names : Renaming) (index : Nat) : Nat :=
  if names.IsInput index then names.inputs.getD (index - 1) 0 else index + names.shift

/-- A variable that is no input stays a variable when it is moved. -/
def Fits (names : Renaming) (index : Nat) : Prop :=
  names.IsInput index ∨ index ≤ variableMax ∧ names.name index ≤ variableMax

/-- The names of inputs are variables, of which there are no more than the range has. -/
structure Proper (names : Renaming) : Prop where
  length_le : names.inputs.length ≤ variableMax
  mem_range : ∀ index ∈ names.inputs, 1 ≤ index ∧ index ≤ variableMax

/-! ### Names -/

theorem IsInput.lt_length (h : names.IsInput index) : index - 1 < names.inputs.length :=
  Nat.sub_one_lt_of_le h.1 h.2

theorem IsInput.input?_eq (h : names.IsInput index) : names.input? index = some (names.name index) := by
  rw [input?, if_neg (Nat.one_le_iff_ne_zero.mp h.1), name, if_pos h, List.getD_eq_getElem _ _ h.lt_length,
    List.getElem?_eq_getElem h.lt_length]

theorem input?_eq_none (h : ¬ names.IsInput index) : names.input? index = none := by
  unfold IsInput at h
  rw [input?, ite_eq_left_iff, List.getElem?_eq_none_iff]
  omega

theorem name_eq_add (h : ¬ names.IsInput index) : names.name index = index + names.shift :=
  if_neg h

theorem IsInput.name_mem (h : names.IsInput index) : names.name index ∈ names.inputs := by
  rw [name, if_pos h, List.getD_eq_getElem _ _ h.lt_length]
  exact List.getElem_mem _

theorem Proper.name_pos (h : names.Proper) (hindex : 0 < index) : 0 < names.name index := by
  by_cases hinput : names.IsInput index
  · exact (h.mem_range _ hinput.name_mem).1
  · rw [name_eq_add hinput]
    omega

theorem Proper.le_variableMax (h : names.Proper) (hfits : names.Fits index) :
    index ≤ variableMax ∧ names.name index ≤ variableMax := by
  rcases hfits with hinput | hrange
  · exact ⟨hinput.2.trans h.length_le, (h.mem_range _ hinput.name_mem).2⟩
  · exact hrange

/-! ### Literals -/

/-- A literal over the new name of its variable. -/
def substitute (names : Renaming) (literal : Int) : Int :=
  withVariable literal (names.name literal.natAbs)

/-- The larger of a number and the new variable of a literal, if that is no input. -/
def raise (names : Renaming) (largest : Nat) (literal : Int) : Nat :=
  if names.IsInput literal.natAbs then largest else max largest (names.name literal.natAbs)

/-- The error for a variable that leaves the range. -/
def fault (names : Renaming) (index : Nat) : Error :=
  .allocator (.shiftOutOfRange index names.shift)

theorem natAbs_withVariable (literal : Int) (index : Nat) : (withVariable literal index).natAbs = index := by
  unfold withVariable
  split_ifs <;> omega

theorem natAbs_substitute (literal : Int) : (names.substitute literal).natAbs = names.name literal.natAbs :=
  natAbs_withVariable _ _

theorem Proper.substitute_neg_iff (h : names.Proper) : names.substitute literal < 0 ↔ literal < 0 := by
  have hpos : 0 < literal.natAbs → 0 < names.name literal.natAbs := h.name_pos
  unfold substitute withVariable
  split_ifs <;> omega

/-- A literal gets its new name, or it is refused. -/
theorem literal_cases (names : Renaming) (largest : Nat) (literal : Int) :
    (names.Fits literal.natAbs ∧
      names.literal largest literal = .ok (names.substitute literal, names.raise largest literal)) ∨
    ¬ names.Fits literal.natAbs ∧ names.literal largest literal = .error (names.fault literal.natAbs) := by
  unfold Fits Renaming.literal substitute raise
  by_cases hinput : names.IsInput literal.natAbs
  · rw [hinput.input?_eq, if_pos hinput]
    exact Or.inl ⟨Or.inl hinput, rfl⟩
  · rw [input?_eq_none hinput, if_neg hinput, name_eq_add hinput]
    unfold moved
    split_ifs with hrange
    · exact Or.inl ⟨Or.inr hrange, rfl⟩
    · exact Or.inr ⟨fun h => h.elim hinput hrange, rfl⟩

/-- Literals get their new names in order, or one of them is refused. -/
theorem literals_cases (names : Renaming) (literals : List Int) : ∀ largest,
    ((∀ literal ∈ literals, names.Fits literal.natAbs) ∧
      names.literals largest literals = .ok (literals.map names.substitute, literals.foldl names.raise largest)) ∨
    ∃ literal ∈ literals, ¬ names.Fits literal.natAbs ∧
      names.literals largest literals = .error (names.fault literal.natAbs) := by
  induction literals with
  | nil => exact fun _ => Or.inl ⟨fun _ hmem => absurd hmem List.not_mem_nil, rfl⟩
  | cons first rest ih =>
      intro largest
      rcases names.literal_cases largest first with ⟨hfirst, hok⟩ | ⟨hfirst, herror⟩
      · rcases ih (names.raise largest first) with ⟨hrest, hothers⟩ | ⟨literal, hmem, hnot, hothers⟩
        · refine Or.inl ⟨List.forall_mem_cons.mpr ⟨hfirst, hrest⟩, ?_⟩
          rw [Renaming.literals, bind_eq_ok]
          exact ⟨_, hok, bind_eq_ok.mpr ⟨_, hothers, rfl⟩⟩
        · refine Or.inr ⟨literal, List.mem_cons_of_mem _ hmem, hnot, ?_⟩
          rw [Renaming.literals, bind_eq_error]
          exact Or.inr ⟨_, hok, bind_eq_error.mpr (Or.inl hothers)⟩
      · refine Or.inr ⟨first, List.mem_cons_self, hfirst, ?_⟩
        rw [Renaming.literals, bind_eq_error]
        exact Or.inl herror

/-- The number that comes back is the largest of the new names and the number before. -/
theorem isGreatest_foldl_raise (names : Renaming) (literals : List Int) : ∀ largest,
    IsGreatest (insert largest {new | ∃ literal ∈ literals, ¬ names.IsInput literal.natAbs ∧
      new = names.name literal.natAbs}) (literals.foldl names.raise largest) := by
  induction literals with
  | nil =>
      intro largest
      refine ⟨Set.mem_insert _ _, ?_⟩
      rintro new (rfl | ⟨literal, hmem, -⟩)
      · exact le_rfl
      · exact absurd hmem List.not_mem_nil
  | cons first rest ih =>
      intro largest
      obtain ⟨hmem, hupper⟩ := ih (names.raise largest first)
      have hstart : names.raise largest first ≤ rest.foldl names.raise (names.raise largest first) :=
        hupper (Set.mem_insert _ _)
      rw [List.foldl_cons]
      constructor
      · rcases hmem with heq | ⟨literal, hliteral, hnew⟩
        · rw [heq, raise]
          split_ifs with hinput
          · exact Set.mem_insert _ _
          · rcases max_choice largest (names.name first.natAbs) with hmax | hmax
            · exact Or.inl hmax
            · exact Set.mem_insert_of_mem _ ⟨first, List.mem_cons_self, hinput, hmax⟩
        · exact Set.mem_insert_of_mem _ ⟨literal, List.mem_cons_of_mem _ hliteral, hnew⟩
      · rintro new (rfl | ⟨literal, hliteral, hinput, rfl⟩)
        · refine le_trans ?_ hstart
          unfold raise
          split_ifs
          · exact le_rfl
          · exact le_max_left _ _
        · rcases List.mem_cons.mp hliteral with rfl | hliteral
          · refine le_trans ?_ hstart
            rw [raise, if_neg hinput]
            exact le_max_right _ _
          · exact hupper (Set.mem_insert_of_mem _ ⟨literal, hliteral, hinput, rfl⟩)

end Renaming

/-! ### Subformulas -/

namespace Subformula

variable {names : Renaming} {unit other : Subformula}

/-- The literals of a clause; other subformulas have none. -/
def literals : Subformula → List Int
  | .clause literals => literals
  | .negation _ | .binary _ _ _ => []

/-- The literals of a clause have the new names of their variables and their signs, all else stays. -/
inductive Renamed (names : Renaming) : Subformula → Subformula → Prop
  | clause {literals others : List Int}
    (h : List.Forall₂ (fun literal other => other.natAbs = names.name literal.natAbs ∧ (other < 0 ↔ literal < 0))
      literals others) : Renamed names (.clause literals) (.clause others)
  | negation (operand : Nat) : Renamed names (.negation operand) (.negation operand)
  | binary (connective : Connective) (left right : Nat) :
    Renamed names (.binary connective left right) (.binary connective left right)

def substitute (names : Renaming) : Subformula → Subformula
  | .clause literals => .clause (literals.map names.substitute)
  | unit => unit

theorem literals_substitute (names : Renaming) (unit : Subformula) :
    (unit.substitute names).literals = unit.literals.map names.substitute := by
  cases unit <;> rfl

theorem renamed_substitute (hnames : names.Proper) (unit : Subformula) :
    unit.Renamed names (unit.substitute names) := by
  cases unit with
  | clause literals =>
      refine .clause (List.forall₂_map_right_iff.mpr (List.forall₂_same.mpr fun literal _ => ?_))
      exact ⟨Renaming.natAbs_substitute literal, hnames.substitute_neg_iff⟩
  | negation operand => exact .negation operand
  | binary connective left right => exact .binary connective left right

/-- A renamed subformula has the degree of the subformula where each variable takes the value of its new name. -/
theorem Renamed.degree_eq {α : Type} [Scalar α] (h : unit.Renamed names other)
    (hrange : ∀ literal ∈ unit.literals, literal.natAbs ≤ variableMax ∧ names.name literal.natAbs ≤ variableMax)
    (valuation : Nat → α) (known : Array α) :
    other.degree valuation known = unit.degree (valuation ∘ names.name) known := by
  cases h with
  | negation operand | binary connective left right => rfl
  | @clause literals others h =>
      have hvalues : others.map (literalDegree valuation) = literals.map (literalDegree (valuation ∘ names.name)) := by
        change ∀ literal ∈ literals, _ at hrange
        induction h with
        | nil => rfl
        | @cons literal other literals others hliteral _ ih =>
            obtain ⟨⟨hle, hname⟩, hrest⟩ := List.forall_mem_cons.mp hrange
            have hfirst : literalDegree valuation other = literalDegree (valuation ∘ names.name) literal := by
              unfold literalDegree
              simp only [hliteral.1, hliteral.2, mod_of_le hname, mod_of_le hle, Function.comp_apply]
            rw [List.map_cons, List.map_cons, hfirst, ih hrest]
      rw [degree, degree, hvalues]

end Subformula

namespace Renaming

/-- Subformulas are renamed in order, or one of their literals is refused. -/
theorem units_cases (names : Renaming) (units : List Subformula) : ∀ largest,
    ((∀ literal ∈ units.flatMap Subformula.literals, names.Fits literal.natAbs) ∧
      names.units largest units = .ok (units.map (Subformula.substitute names),
        (units.flatMap Subformula.literals).foldl names.raise largest)) ∨
    ∃ literal ∈ units.flatMap Subformula.literals, ¬ names.Fits literal.natAbs ∧
      names.units largest units = .error (names.fault literal.natAbs) := by
  induction units with
  | nil => exact fun _ => Or.inl ⟨fun _ hmem => absurd hmem List.not_mem_nil, rfl⟩
  | cons unit rest ih =>
      intro largest
      simp only [List.flatMap_cons, List.foldl_append, List.mem_append]
      cases unit with
      | negation operand | binary connective left right =>
          rcases ih largest with ⟨hrest, hothers⟩ | ⟨literal, hmem, hnot, hothers⟩
          · refine Or.inl ⟨fun literal hmem => hrest literal (hmem.resolve_left List.not_mem_nil), ?_⟩
            exact bind_eq_ok.mpr ⟨_, hothers, rfl⟩
          · exact Or.inr ⟨literal, Or.inr hmem, hnot, bind_eq_error.mpr (Or.inl hothers)⟩
      | clause literals =>
          rcases names.literals_cases literals largest with ⟨hfirst, hok⟩ | ⟨literal, hmem, hnot, herror⟩
          · rcases ih (literals.foldl names.raise largest) with ⟨hrest, hothers⟩ | ⟨literal, hmem, hnot, hothers⟩
            · refine Or.inl ⟨fun literal hmem => hmem.elim (hfirst literal) (hrest literal), ?_⟩
              exact bind_eq_ok.mpr ⟨_, hok, bind_eq_ok.mpr ⟨_, hothers, rfl⟩⟩
            · refine Or.inr ⟨literal, Or.inr hmem, hnot, bind_eq_error.mpr (Or.inr ⟨_, hok, ?_⟩)⟩
              exact bind_eq_error.mpr (Or.inl hothers)
          · exact Or.inr ⟨literal, Or.inl hmem, hnot, bind_eq_error.mpr (Or.inl herror)⟩

end Renaming

/-! ### Formulas -/

namespace Formula

variable {names : Renaming} {formula : Formula}

def literals (formula : Formula) : List Int :=
  formula.units.flatMap Subformula.literals

def substitute (names : Renaming) (formula : Formula) : Formula :=
  ⟨formula.units.map (Subformula.substitute names)⟩

theorem literals_substitute (names : Renaming) (formula : Formula) :
    (formula.substitute names).literals = formula.literals.map names.substitute := by
  unfold literals substitute
  rw [List.flatMap_map, List.map_flatMap]
  simp only [Subformula.literals_substitute]

theorem mentions_iff {index : Nat} : formula.Mentions index ↔ ∃ literal ∈ formula.literals, literal.natAbs = index := by
  simp only [Mentions, literals, List.mem_flatMap]
  constructor
  · rintro ⟨literals, hunit, literal, hmem, rfl⟩
    exact ⟨literal, ⟨_, hunit, hmem⟩, rfl⟩
  · rintro ⟨literal, ⟨unit, hunit, hmem⟩, rfl⟩
    cases unit with
    | clause literals => exact ⟨literals, hunit, literal, hmem, rfl⟩
    | negation operand | binary connective left right => exact absurd hmem List.not_mem_nil

theorem run_perform (names : Renaming) (formula : Formula) : names.perform.run.run formula =
    (liftExcept (formula.rename names) >>= fun result => set result.1 >>= fun _ => pure result.2 :
      ExceptT Error (StateM Formula) Nat).run.run formula :=
  rfl

/-- A formula is renamed as a whole or stays as it is. -/
theorem perform_cases (names : Renaming) (formula : Formula) :
    ((∀ literal ∈ formula.literals, names.Fits literal.natAbs) ∧
      names.perform.run.run formula = (.ok (formula.literals.foldl names.raise 0), formula.substitute names)) ∨
    ∃ literal ∈ formula.literals, ¬ names.Fits literal.natAbs ∧
      names.perform.run.run formula = (.error (names.fault literal.natAbs), formula) := by
  rw [run_perform]
  rcases names.units_cases formula.units 0 with ⟨hfits, hok⟩ | ⟨literal, hmem, hnot, herror⟩
  · refine Or.inl ⟨hfits, ?_⟩
    rw [rename, hok]
    rfl
  · refine Or.inr ⟨literal, hmem, hnot, ?_⟩
    rw [rename, herror]
    rfl

/-- Under a valuation the renamed formula has the degree of the formula where each variable takes the value of its new
name. -/
theorem evaluate_substitute {α : Type} [Scalar α] (hnames : names.Proper)
    (hfits : ∀ literal ∈ formula.literals, names.Fits literal.natAbs) (valuation : Nat → α) :
    (formula.substitute names).evaluate valuation = formula.evaluate (valuation ∘ names.name) := by
  unfold evaluate degrees substitute
  rw [List.foldlM_map, foldlM_congr_mem fun unit hunit known => ?_]
  rw [(Subformula.renamed_substitute hnames unit).degree_eq (fun literal hliteral => ?_)]
  exact hnames.le_variableMax (hfits literal (List.mem_flatMap_of_mem hunit hliteral))

/-- Renaming is a substitution, made as a whole or not at all. It succeeds just when every variable that is no input
stays in the range of variables, and so does its new name. Then the subformulas keep their kinds, the places they refer
to and the signs of their literals; under every valuation, in every number type, the formula has the degree that it had
where each variable takes the value of its new name; and the number that comes back is the largest new name of a
variable that is no input, or zero, so that every variable is then one of the inputs or at most this number. A refused
renaming names a variable that does not fit and leaves the formula as it was. -/
theorem perform_substitutes (hnames : names.Proper) (hordered : formula.Ordered) :
    ((∃ largest, (names.perform.run.run formula).1 = .ok largest) ↔
      ∀ index, formula.Mentions index → names.Fits index) ∧
    (∀ largest renamed, names.perform.run.run formula = (.ok largest, renamed) →
      List.Forall₂ (Subformula.Renamed names) formula.units renamed.units ∧
      (∀ {α : Type} [Scalar α] (valuation : Nat → α), ∃ degree?, renamed.evaluate valuation = .ok degree? ∧
        formula.evaluate (valuation ∘ names.name) = .ok degree?) ∧
      IsGreatest (insert 0 {new | ∃ index, formula.Mentions index ∧ ¬ names.IsInput index ∧ new = names.name index})
        largest ∧
      ∀ index, renamed.Mentions index → index ∈ names.inputs ∨ index ≤ largest) ∧
    ∀ error after, names.perform.run.run formula = (.error error, after) →
      after = formula ∧ ∃ index, formula.Mentions index ∧ ¬ names.Fits index ∧
        error = .allocator (.shiftOutOfRange index names.shift) := by
  have hmentions : ∀ {P : Nat → Prop}, (∀ index, formula.Mentions index → P index) ↔
      ∀ literal ∈ formula.literals, P literal.natAbs := by
    intro P
    simp only [mentions_iff, forall_exists_index, and_imp, forall_apply_eq_imp_iff₂]
  rcases perform_cases names formula with ⟨hfits, hok⟩ | ⟨literal, hmem, hnot, herror⟩
  · rw [hok]
    refine ⟨iff_of_true ⟨_, rfl⟩ (hmentions.mpr hfits), fun largest renamed h => ?_, fun error after h => ?_⟩
    · cases h
      have hgreatest := names.isGreatest_foldl_raise formula.literals 0
      refine ⟨?_, fun valuation => ?_, ?_, fun index hindex => ?_⟩
      · exact List.forall₂_map_right_iff.mpr (List.forall₂_same.mpr fun unit _ =>
          Subformula.renamed_substitute hnames unit)
      · rw [evaluate_substitute hnames hfits]
        by_cases hempty : formula = empty
        · exact ⟨none, hempty ▸ ⟨rfl, rfl⟩⟩
        · obtain ⟨tree, htree⟩ := hordered.exists_represents hempty
          have hdegree := hordered.evaluate_eq htree (valuation ∘ names.name)
          exact ⟨_, hdegree, hdegree⟩
      · simpa only [mentions_iff, exists_exists_and_eq_and, and_assoc] using hgreatest
      · obtain ⟨other, hother, rfl⟩ := mentions_iff.mp hindex
        rw [literals_substitute] at hother
        obtain ⟨literal, hliteral, rfl⟩ := List.mem_map.mp hother
        rw [Renaming.natAbs_substitute]
        by_cases hinput : names.IsInput literal.natAbs
        · exact Or.inl hinput.name_mem
        · exact Or.inr (hgreatest.2 (Set.mem_insert_of_mem _ ⟨literal, hliteral, hinput, rfl⟩))
    · cases h
  · rw [herror]
    refine ⟨iff_of_false (fun ⟨_, h⟩ => ?_) fun h => hnot (hmentions.mp h literal hmem), fun _ _ h => ?_,
      fun error after h => ?_⟩
    · cases h
    · cases h
    · cases h
      exact ⟨rfl, literal.natAbs, mentions_iff.mpr ⟨literal, hmem, rfl⟩, hnot, rfl⟩

/-- `¬(x₁ ⊕ ¬x₂ ⊕ x₃) → (¬x₅ ⊕ x₂)`. -/
def guarded : Formula :=
  (clause [1, -2, 3]).negate.push .implication (clause [-5, 2])

theorem ordered_guarded : guarded.Ordered :=
  (ordered_clause [1, -2, 3]).negate.push (ordered_clause [-5, 2]) .implication

theorem perform_substitutes_guarded :
    (∃ renamed, (Renaming.mk [10, 11] 20).perform.run.run guarded = (.ok 25, renamed) ∧
      ∀ valuation : Nat → ℚ, ∃ degree?, renamed.evaluate valuation = .ok degree? ∧
        guarded.evaluate (valuation ∘ (Renaming.mk [10, 11] 20).name) = .ok degree?) ∧
    ∃ index, guarded.Mentions index ∧ (Renaming.mk [] (variableMax - 3)).perform.run.run guarded =
      (.error (.allocator (.shiftOutOfRange index (variableMax - 3))), guarded) := by
  constructor
  · have hrun : (Renaming.mk [10, 11] 20).perform.run.run guarded =
        (.ok 25, ⟨[.clause [10, -11, 23], .negation 0, .clause [-25, 11], .binary .implication 1 2]⟩) := rfl
    have hproper : (Renaming.mk [10, 11] 20).Proper := ⟨by decide, by decide⟩
    obtain ⟨-, hrenamed, -⟩ := perform_substitutes hproper ordered_guarded
    exact ⟨_, hrun, fun valuation => (hrenamed _ _ hrun).2.1 valuation⟩
  · have hproper : (Renaming.mk [] (variableMax - 3)).Proper := ⟨by decide, by decide⟩
    obtain ⟨-, -, hrefused⟩ := perform_substitutes hproper ordered_guarded
    obtain ⟨error, herror⟩ : ∃ error, ((Renaming.mk [] (variableMax - 3)).perform.run.run guarded).1 = .error error :=
      ⟨_, rfl⟩
    obtain ⟨hafter, index, hmentions, -, rfl⟩ := hrefused error _ (Prod.ext herror rfl)
    exact ⟨index, hmentions, Prod.ext herror hafter⟩

end Formula

end ReluLogic
