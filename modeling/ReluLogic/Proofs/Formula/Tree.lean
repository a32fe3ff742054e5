import ReluLogic.Formula.Renaming
import ReluLogic.Proofs.Formula.Evaluation

/-!
Formulas as trees. A formula in which every subformula refers to earlier places only stands for one tree, with shared
parts written out at each of their uses, and has the truth degree of that tree. All formulas that the operations make
are of this kind, and negation and combination of formulas are those of their trees.
-/

namespace ReluLogic

/-- A formula with nothing shared. -/
inductive SyntaxTree where
  /-- The strong disjunction of literals. -/
  | clause (literals : List Int)
  | negation (operand : SyntaxTree)
  | binary (connective : Connective) (left right : SyntaxTree)
  deriving Repr, DecidableEq

namespace SyntaxTree

def degree {α : Type} [Scalar α] (valuation : Nat → α) : SyntaxTree → α
  | .clause literals => Scalar.smaller (Scalar.sum (literals.map (Subformula.literalDegree valuation))) 1
  | .negation operand => 1 - operand.degree valuation
  | .binary connective left right => connective.apply (left.degree valuation) (right.degree valuation)

/-- Two trees under a connective; the strong disjunction of two clauses is one longer clause. -/
def join (connective : Connective) (left right : SyntaxTree) : SyntaxTree :=
  match connective, left, right with
  | .strongDisjunction, .clause mine, .clause theirs => .clause (mine ++ theirs)
  | _, _, _ => .binary connective left right

variable {valuation : Nat → ℚ}

theorem degree_clause (literals : List Int) :
    (clause literals).degree valuation = min (Subformula.clauseSum valuation literals) 1 := by
  rw [degree, Scalar.smaller_eq_min, Scalar.sum_eq_sum, Subformula.clauseSum]

theorem degree_mem (hunit : UnitValued valuation) (tree : SyntaxTree) :
    0 ≤ tree.degree valuation ∧ tree.degree valuation ≤ 1 := by
  induction tree with
  | clause literals =>
      rw [degree_clause]
      exact ⟨le_min (Subformula.clauseSum_nonneg hunit) zero_le_one, min_le_right _ _⟩
  | negation operand ih =>
      rw [degree]
      exact ⟨sub_nonneg.mpr ih.2, sub_le_self 1 ih.1⟩
  | binary connective left right ihleft ihright => exact connective.apply_mem ihleft ihright

/-- Merging clauses does not change the degree: a sum that is cut off at one may be cut off before. -/
theorem degree_join (hunit : UnitValued valuation) (connective : Connective) (left right : SyntaxTree) :
    (join connective left right).degree valuation =
      connective.apply (left.degree valuation) (right.degree valuation) := by
  unfold join
  split
  · rename_i mine theirs
    rw [degree_clause, degree_clause, degree_clause, Connective.apply_strongDisjunction,
      Formula.min_add_min (Subformula.clauseSum_nonneg hunit) (Subformula.clauseSum_nonneg hunit),
      Subformula.clauseSum_append]
  · rfl

end SyntaxTree

/-! ### References -/

namespace Subformula

/-- The places that a subformula refers to. -/
def operands : Subformula → List Nat
  | .clause _ => []
  | .negation operand => [operand]
  | .binary _ left right => [left, right]

theorem operands_shifted (offset : Nat) (unit : Subformula) :
    (unit.shifted offset).operands = unit.operands.map (· + offset) := by
  cases unit <;> rfl

/-- Two subformulas that are equal up to the literals of a clause. -/
inductive Alike : Subformula → Subformula → Prop
  | clause (literals others : List Int) : Alike (.clause literals) (.clause others)
  | refl (unit : Subformula) : Alike unit unit

theorem Alike.operands_eq {unit other : Subformula} (h : Alike unit other) : other.operands = unit.operands := by
  cases h <;> rfl

theorem Alike.exists_clause {unit : Subformula} {literals : List Int} (h : Alike unit (.clause literals)) :
    ∃ others, unit = .clause others := by
  cases h
  · exact ⟨_, rfl⟩
  · exact ⟨_, rfl⟩

end Subformula

namespace Formula

variable {formula left right : Formula} {units more : List Subformula} {place : Nat} {tree other : SyntaxTree}

/-- Every subformula refers to earlier places only. -/
def Ordered (formula : Formula) : Prop :=
  ∀ (place : Nat) (unit : Subformula), formula.units[place]? = some unit → ∀ operand ∈ unit.operands, operand < place

theorem ordered_empty : empty.Ordered := by
  intro place unit hunit
  cases hunit

/-- One more subformula may refer to all places before it. -/
theorem Ordered.concat (h : formula.Ordered) {unit : Subformula}
    (hunit : ∀ operand ∈ unit.operands, operand < formula.size) : Ordered ⟨formula.units ++ [unit]⟩ := by
  intro place last hlast operand hoperand
  rcases lt_or_ge place formula.size with hlt | hge
  · rw [List.getElem?_append_left hlt] at hlast
    exact h place last hlast operand hoperand
  · rw [List.getElem?_append_right hge, List.getElem?_singleton] at hlast
    split_ifs at hlast
    cases hlast
    exact (hunit operand hoperand).trans_le hge

theorem ordered_clause (literals : List Int) : (clause literals).Ordered :=
  ordered_empty.concat fun _ hoperand => absurd hoperand List.not_mem_nil

/-- Behind others a formula is in order if its places are moved up by their number. -/
theorem Ordered.behind (h : left.Ordered) (h' : right.Ordered) :
    Ordered ⟨left.units ++ right.units.map (.shifted left.size)⟩ := by
  intro place unit hunit operand hoperand
  rcases lt_or_ge place left.size with hlt | hge
  · rw [List.getElem?_append_left hlt] at hunit
    exact h place unit hunit operand hoperand
  · rw [List.getElem?_append_right hge, List.getElem?_map] at hunit
    obtain ⟨moved, hmoved, rfl⟩ := Option.map_eq_some_iff.mp hunit
    rw [Subformula.operands_shifted] at hoperand
    obtain ⟨origin, horigin, rfl⟩ := List.mem_map.mp hoperand
    have hlt := h' _ moved hmoved origin horigin
    change place - left.size > origin at hlt
    omega

theorem Ordered.negate (h : formula.Ordered) : formula.negate.Ordered := by
  unfold Formula.negate
  rcases hroot : formula.root? with _ | root
  · exact h
  · apply h.concat
    intro operand hoperand
    rw [root?] at hroot
    split_ifs at hroot with hempty
    cases hroot
    rw [List.mem_singleton.mp hoperand]
    have hpos : 0 < formula.size := List.length_pos_of_ne_nil fun hnil => hempty (List.isEmpty_iff.mpr hnil)
    omega

theorem Ordered.join (h : left.Ordered) (h' : right.Ordered) (connective : Connective)
    (hleft : left.isEmpty = false) (hright : right.isEmpty = false) : (left.join connective right).Ordered := by
  have hpos : ∀ {formula : Formula}, formula.isEmpty = false → 0 < formula.size := by
    intro formula hempty
    exact List.length_pos_of_ne_nil (List.isEmpty_eq_false_iff.mp hempty)
  apply (h.behind h').concat
  intro operand hoperand
  have hlength : size ⟨left.units ++ right.units.map (.shifted left.size)⟩ = left.size + right.size := by
    simp only [size, List.length_append, List.length_map]
  have hleftPos := hpos hleft
  have hrightPos := hpos hright
  rw [hlength]
  simp only [Subformula.operands, List.mem_cons, List.not_mem_nil, or_false] at hoperand
  omega

/-! ### Combination -/

/-- Two formulas that are not empty are joined, unless both are single clauses under a strong disjunction. -/
theorem push_cases (connective : Connective) (hleft : left.isEmpty = false) (hright : right.isEmpty = false) :
    (∃ mine theirs, connective = .strongDisjunction ∧ left = clause mine ∧ right = clause theirs ∧
      left.push connective right = clause (mine ++ theirs)) ∨
    (¬ (connective = .strongDisjunction ∧ (∃ mine, left = clause mine) ∧ ∃ theirs, right = clause theirs)) ∧
      left.push connective right = left.join connective right := by
  obtain ⟨leftUnits⟩ := left
  obtain ⟨rightUnits⟩ := right
  unfold Formula.push
  rw [hleft, hright, if_neg Bool.false_ne_true, if_neg Bool.false_ne_true]
  split
  · rename_i mine theirs hmine htheirs
    cases hmine
    cases htheirs
    exact Or.inl ⟨mine, theirs, rfl, rfl, rfl, rfl⟩
  · rename_i hother
    refine Or.inr ⟨?_, rfl⟩
    rintro ⟨rfl, ⟨mine, hmine⟩, theirs, htheirs⟩
    exact hother mine theirs rfl (congrArg units hmine) (congrArg units htheirs)

theorem push_empty (formula : Formula) (connective : Connective) : formula.push connective empty = formula :=
  rfl

theorem empty_push (connective : Connective) (formula : Formula) : empty.push connective formula =
    if connective.hasLeftIdentity then formula else empty := by
  obtain ⟨units⟩ := formula
  cases units with
  | nil => rw [show (⟨[]⟩ : Formula) = empty from rfl, ite_self, push_empty]
  | cons unit units => rfl

theorem Ordered.push (h : left.Ordered) (h' : right.Ordered) (connective : Connective) :
    (left.push connective right).Ordered := by
  rcases hright : right.isEmpty with _ | _
  · rcases hleft : left.isEmpty with _ | _
    · rcases push_cases connective hleft hright with ⟨mine, theirs, -, -, -, hpush⟩ | ⟨-, hpush⟩
      · rw [hpush]
        exact ordered_clause _
      · rw [hpush]
        exact h.join h' connective hleft hright
    · obtain rfl : left = empty := congrArg Formula.mk (List.isEmpty_iff.mp hleft)
      rw [empty_push]
      split_ifs
      · exact h'
      · exact h
  · obtain rfl : right = empty := congrArg Formula.mk (List.isEmpty_iff.mp hright)
    exact h

/-! ### Renaming -/

/-- A renaming changes literals only. -/
theorem alike_of_units {names : Renaming} (units : List Subformula) :
    ∀ {largest : Nat} {result : List Subformula × Nat}, names.units largest units = .ok result →
      List.Forall₂ Subformula.Alike units result.1 := by
  induction units with
  | nil =>
      intro largest result h
      cases h
      exact .nil
  | cons unit units ih =>
      intro largest result h
      cases unit with
      | clause literals =>
          obtain ⟨renamed, -, h⟩ := bind_eq_ok.mp h
          obtain ⟨others, hothers, h⟩ := bind_eq_ok.mp h
          cases h
          exact .cons (.clause literals _) (ih hothers)
      | negation operand | binary connective left right =>
          obtain ⟨others, hothers, h⟩ := bind_eq_ok.mp h
          cases h
          exact .cons (.refl _) (ih hothers)

theorem alike_of_rename {names : Renaming} {renamed : Formula} {largest : Nat}
    (h : formula.rename names = .ok (renamed, largest)) :
    List.Forall₂ Subformula.Alike formula.units renamed.units := by
  obtain ⟨result, hunits, h⟩ := bind_eq_ok.mp h
  cases h
  exact alike_of_units _ hunits

theorem Ordered.rename {names : Renaming} {renamed : Formula} {largest : Nat} (h : formula.Ordered)
    (hrename : formula.rename names = .ok (renamed, largest)) : renamed.Ordered := by
  have halike := alike_of_rename hrename
  intro place unit hunit operand hoperand
  obtain ⟨hplace, rfl⟩ := List.getElem?_eq_some_iff.mp hunit
  have hold : place < formula.units.length := halike.length_eq ▸ hplace
  have hsame : Subformula.Alike formula.units[place] renamed.units[place] := halike.get hold hplace
  rw [hsame.operands_eq] at hoperand
  exact h place _ (List.getElem?_eq_getElem hold) operand hoperand

/-! ### Trees -/

/-- The subformula at a place, with the subformulas that it refers to written out, is a tree. -/
inductive Unfolds (units : List Subformula) : Nat → SyntaxTree → Prop
  | clause {place literals} (h : units[place]? = some (.clause literals)) : Unfolds units place (.clause literals)
  | negation {place operand tree} (h : units[place]? = some (.negation operand)) (hback : operand < place)
    (hoperand : Unfolds units operand tree) : Unfolds units place (.negation tree)
  | binary {place connective first second left right} (h : units[place]? = some (.binary connective first second))
    (hfirst : first < place) (hsecond : second < place) (hleft : Unfolds units first left)
    (hright : Unfolds units second right) : Unfolds units place (.binary connective left right)

/-- The last subformula of a formula, written out, is a tree. -/
def Represents (formula : Formula) (tree : SyntaxTree) : Prop :=
  Unfolds formula.units (formula.size - 1) tree

theorem Unfolds.lt_length (h : Unfolds units place tree) : place < units.length := by
  cases h <;> exact (List.getElem?_eq_some_iff.mp ‹_›).1

theorem Unfolds.unique (h : Unfolds units place tree) : ∀ {other : SyntaxTree}, Unfolds units place other →
    tree = other := by
  induction h with
  | clause hunit =>
      intro other hother
      cases hother with
      | clause hunit' => cases hunit.symm.trans hunit'; rfl
      | negation hunit' | binary hunit' => cases hunit.symm.trans hunit'
  | negation hunit _ _ ih =>
      intro other hother
      cases hother with
      | negation hunit' _ hoperand =>
          cases hunit.symm.trans hunit'
          rw [ih hoperand]
      | clause hunit' | binary hunit' => cases hunit.symm.trans hunit'
  | binary hunit _ _ _ _ ihleft ihright =>
      intro other hother
      cases hother with
      | binary hunit' _ _ hleft hright =>
          cases hunit.symm.trans hunit'
          rw [ihleft hleft, ihright hright]
      | clause hunit' | negation hunit' => cases hunit.symm.trans hunit'

/-- Places are written out by going back, so every place of an ordered formula has a tree. -/
theorem Ordered.exists_unfolds (h : formula.Ordered) (place : Nat) :
    place < formula.size → ∃ tree, Unfolds formula.units place tree := by
  induction place using Nat.strong_induction_on with
  | _ place ih =>
      intro hplace
      have hunit := List.getElem?_eq_getElem hplace
      have hback := h place _ hunit
      have htree : ∀ operand, operand < place → ∃ tree, Unfolds formula.units operand tree :=
        fun operand hlt => ih operand hlt (hlt.trans hplace)
      rcases hcase : formula.units[place] with literals | operand | ⟨connective, first, second⟩ <;>
        rw [hcase] at hunit hback
      · exact ⟨_, .clause hunit⟩
      · have hlt := hback operand List.mem_cons_self
        obtain ⟨tree, htree⟩ := htree operand hlt
        exact ⟨_, .negation hunit hlt htree⟩
      · have hfirst := hback first List.mem_cons_self
        have hsecond := hback second (List.mem_cons_of_mem _ List.mem_cons_self)
        obtain ⟨left, hleft⟩ := htree first hfirst
        obtain ⟨right, hright⟩ := htree second hsecond
        exact ⟨_, .binary hunit hfirst hsecond hleft hright⟩

/-- What stands behind a place does not matter to its tree. -/
theorem Unfolds.append (h : Unfolds units place tree) (more : List Subformula) :
    Unfolds (units ++ more) place tree := by
  have hkeep : ∀ {place : Nat} {unit : Subformula}, units[place]? = some unit →
      (units ++ more)[place]? = some unit := by
    intro place unit hunit
    rw [List.getElem?_append_left (List.getElem?_eq_some_iff.mp hunit).1, hunit]
  induction h with
  | clause hunit => exact .clause (hkeep hunit)
  | negation hunit hback _ ih => exact .negation (hkeep hunit) hback ih
  | binary hunit hfirst hsecond _ _ ihleft ihright => exact .binary (hkeep hunit) hfirst hsecond ihleft ihright

/-- A tree is read off moved places as before. -/
theorem Unfolds.behind (h : Unfolds units place tree) (before : List Subformula) :
    Unfolds (before ++ units.map (.shifted before.length)) (place + before.length) tree := by
  have hmove : ∀ {place : Nat} {unit : Subformula}, units[place]? = some unit →
      (before ++ units.map (.shifted before.length))[place + before.length]? = some (unit.shifted before.length) := by
    intro place unit hunit
    rw [List.getElem?_append_right (Nat.le_add_left _ _), Nat.add_sub_cancel, List.getElem?_map, hunit]
    rfl
  induction h with
  | clause hunit => exact .clause (hmove hunit)
  | negation hunit hback _ ih => exact .negation (hmove hunit) (Nat.add_lt_add_right hback _) ih
  | binary hunit hfirst hsecond _ _ ihleft ihright =>
      exact .binary (hmove hunit) (Nat.add_lt_add_right hfirst _) (Nat.add_lt_add_right hsecond _) ihleft ihright

theorem Represents.size_pos (h : formula.Represents tree) : 0 < formula.size :=
  (Nat.zero_le _).trans_lt h.lt_length

theorem Represents.isEmpty_eq (h : formula.Represents tree) : formula.isEmpty = false :=
  List.isEmpty_eq_false_iff.mpr (List.ne_nil_of_length_pos h.size_pos)

theorem represents_clause (literals : List Int) : (clause literals).Represents (.clause literals) :=
  .clause rfl

theorem Represents.negate (h : formula.Represents tree) : formula.negate.Represents (.negation tree) := by
  have hpos := h.size_pos
  rw [Formula.negate, root?, h.isEmpty_eq, if_neg Bool.false_ne_true]
  change Unfolds (formula.units ++ [_]) ((formula.units ++ [_]).length - 1) _
  rw [List.length_append, List.length_singleton, Nat.add_sub_cancel]
  refine .negation (List.getElem?_concat_length) ?_ (h.append _)
  exact Nat.sub_lt hpos one_pos

theorem Represents.join (h : left.Represents tree) (h' : right.Represents other) (connective : Connective) :
    (left.join connective right).Represents (.binary connective tree other) := by
  have hpos := h.size_pos
  have hpos' := h'.size_pos
  have hlength : (left.units ++ right.units.map (Subformula.shifted left.size)).length = left.size + right.size := by
    simp only [size, List.length_append, List.length_map]
  have hroot : left.size + right.size - 1 = right.size - 1 + left.units.length := by
    change left.size + right.size - 1 = right.size - 1 + left.size
    omega
  change Unfolds (_ ++ [_]) ((_ ++ [_]).length - 1) _
  rw [List.length_append, List.length_singleton, Nat.add_sub_cancel]
  refine .binary List.getElem?_concat_length ?_ ?_ ((h.append _).append _) ?_
  · rw [hlength]
    omega
  · rw [hlength]
    omega
  · rw [hroot]
    exact (h'.behind left.units).append _

/-! ### Degrees -/

section Degrees

variable {α : Type} [Scalar α] {valuation : Nat → α}

/-- Where the earlier places have the degrees of their trees, the next subformula has that of its own. -/
theorem Unfolds.degree_eq (h : Unfolds units place tree) {known : Array α}
    (hknown : ∀ earlier < place, ∀ part, Unfolds units earlier part → known[earlier]? = some (part.degree valuation))
    {unit : Subformula} (hunit : units[place]? = some unit) :
    unit.degree valuation known = .ok (tree.degree valuation) := by
  have hoperand : ∀ {operand : Nat} {part : SyntaxTree}, operand < place → Unfolds units operand part →
      Subformula.operandDegree known operand = .ok (part.degree valuation) := by
    intro operand part hlt hpart
    rw [Subformula.operandDegree, hknown operand hlt part hpart]
    rfl
  cases h with
  | clause hunit' =>
      cases hunit.symm.trans hunit'
      rfl
  | negation hunit' hback htree =>
      cases hunit.symm.trans hunit'
      exact bind_eq_ok.mpr ⟨_, hoperand hback htree, rfl⟩
  | binary hunit' hfirst hsecond hleft hright =>
      cases hunit.symm.trans hunit'
      exact bind_eq_ok.mpr ⟨_, hoperand hfirst hleft, bind_eq_ok.mpr ⟨_, hoperand hsecond hright, rfl⟩⟩

/-- The first places of an ordered formula get the degrees of their trees one after the other. -/
theorem Ordered.exists_foldlM (h : formula.Ordered) (valuation : Nat → α) (count : Nat) : count ≤ formula.size →
    ∃ known : Array α, (formula.units.take count).foldlM (fun known unit => do
        let degree ← unit.degree valuation known
        pure (known.push degree)) #[] = .ok known ∧ known.size = count ∧
      ∀ place < count, ∀ tree, Unfolds formula.units place tree → known[place]? = some (tree.degree valuation) := by
  induction count with
  | zero =>
      intro _
      exact ⟨#[], rfl, rfl, fun _ hlt => absurd hlt (Nat.not_lt_zero _)⟩
  | succ count ih =>
      intro hcount
      obtain ⟨known, hfold, hsize, hknown⟩ := ih (Nat.le_of_succ_le hcount)
      obtain ⟨tree, htree⟩ := h.exists_unfolds count hcount
      have hunit := List.getElem?_eq_getElem hcount
      have hdegree := htree.degree_eq hknown hunit
      refine ⟨known.push (tree.degree valuation), ?_, ?_, fun place hplace other hother => ?_⟩
      · rw [← List.take_concat_get' formula.units count hcount, List.foldlM_append, bind_eq_ok]
        refine ⟨known, hfold, ?_⟩
        rw [List.foldlM_cons, bind_eq_ok]
        exact ⟨_, bind_eq_ok.mpr ⟨_, hdegree, rfl⟩, rfl⟩
      · rw [Array.size_push, hsize]
      · rcases Nat.lt_succ_iff_lt_or_eq.mp hplace with hlt | rfl
        · rw [Array.getElem?_push_lt (hsize ▸ hlt), ← Array.getElem?_eq_getElem, hknown place hlt other hother]
        · rw [htree.unique hother, ← hsize, Array.getElem?_push_size]

/-- An ordered formula has the degree of its tree. -/
theorem Ordered.evaluate_eq (h : formula.Ordered) (htree : formula.Represents tree) (valuation : Nat → α) :
    formula.evaluate valuation = .ok (some (tree.degree valuation)) := by
  obtain ⟨known, hfold, hsize, hknown⟩ := h.exists_foldlM valuation formula.size le_rfl
  rw [size, List.take_length] at hfold
  refine bind_eq_ok.mpr ⟨known, hfold, congrArg Except.ok ?_⟩
  rw [Array.back?_eq_getElem?, hsize]
  exact hknown _ (Nat.sub_lt htree.size_pos one_pos) tree htree

end Degrees

theorem Ordered.exists_represents (h : formula.Ordered) (hne : formula ≠ empty) : ∃ tree, formula.Represents tree := by
  apply h.exists_unfolds
  refine Nat.sub_lt (List.length_pos_of_ne_nil fun hnil => ?_) one_pos
  exact hne (congrArg Formula.mk hnil)

/-- An ordered formula that is not empty has a degree under every valuation. -/
theorem Ordered.exists_denotes (h : formula.Ordered) (hne : formula ≠ empty) (valuation : Nat → ℚ) :
    ∃ degree, formula.Denotes valuation degree := by
  obtain ⟨tree, htree⟩ := h.exists_represents hne
  exact ⟨_, h.evaluate_eq htree valuation⟩

theorem Ordered.total (h : formula.Ordered) (hne : formula ≠ empty) : formula.Total := by
  intro valuation hunit
  obtain ⟨tree, htree⟩ := h.exists_represents hne
  obtain ⟨hzero, hone⟩ := tree.degree_mem hunit
  exact ⟨_, hzero, hone, h.evaluate_eq htree valuation⟩

/-! ### Formulas made by the operations -/

/-- The formulas that the operations make, one from the other. -/
inductive Built : Formula → Prop
  | empty : Built empty
  | clause (literals : List Int) : Built (clause literals)
  | literal (value : Int) : Built (literal value)
  | atom (index : Nat) : Built (atom index)
  | negate {formula : Formula} (h : Built formula) : Built formula.negate
  | push {left right : Formula} (h : Built left) (connective : Connective) (h' : Built right) :
    Built (left.push connective right)
  | rename {formula renamed : Formula} {names : Renaming} {largest : Nat} (h : Built formula)
    (hrename : formula.rename names = .ok (renamed, largest)) : Built renamed

theorem Built.ordered (h : formula.Built) : formula.Ordered := by
  induction h with
  | empty => exact ordered_empty
  | clause literals => exact ordered_clause literals
  | literal value => exact ordered_clause [value]
  | atom index => exact ordered_clause [(index : Int)]
  | negate _ ih => exact ih.negate
  | push _ connective _ ih ih' => exact ih.push ih' connective
  | rename _ hrename ih => exact ih.rename hrename

/-- Before a renaming a clause was a clause. -/
theorem exists_represents_clause {renamed : Formula} {literals : List Int}
    (halike : List.Forall₂ Subformula.Alike formula.units renamed.units) (h : renamed.Represents (.clause literals)) :
    ∃ others, formula.Represents (.clause others) := by
  have hsize : formula.size = renamed.size := halike.length_eq
  cases h with
  | clause hunit =>
      obtain ⟨hplace, hget⟩ := List.getElem?_eq_some_iff.mp hunit
      have hold : renamed.size - 1 < formula.units.length := halike.length_eq ▸ hplace
      have hroot : Subformula.Alike formula.units[renamed.size - 1] renamed.units[renamed.size - 1] :=
        halike.get hold hplace
      rw [hget] at hroot
      obtain ⟨others, hothers⟩ := hroot.exists_clause
      refine ⟨others, .clause ?_⟩
      rw [hsize, List.getElem?_eq_getElem hold, hothers]

/-- A clause stands alone: what the operations put behind others is no clause. -/
theorem Built.size_eq_one (h : formula.Built) : ∀ {literals : List Int}, formula.Represents (.clause literals) →
    formula.size = 1 := by
  induction h with
  | empty => exact fun htree => absurd htree.size_pos (lt_irrefl 0)
  | clause _ | literal _ | atom _ => exact fun _ => rfl
  | @negate formula h ih =>
      intro literals htree
      by_cases hempty : formula = .empty
      · subst hempty
        exact ih htree
      · obtain ⟨tree, hformula⟩ := h.ordered.exists_represents hempty
        cases hformula.negate.unique htree
  | @push left right h connective h' ih ih' =>
      intro literals htree
      by_cases hright : right = .empty
      · subst hright
        exact ih htree
      by_cases hleft : left = .empty
      · subst hleft
        rw [empty_push] at htree ⊢
        split_ifs at htree ⊢
        · exact ih' htree
        · exact ih htree
      obtain ⟨tree, htree'⟩ := h.ordered.exists_represents hleft
      obtain ⟨other, hother⟩ := h'.ordered.exists_represents hright
      rcases push_cases connective htree'.isEmpty_eq hother.isEmpty_eq with ⟨mine, theirs, -, -, -, hpush⟩ | ⟨-, hpush⟩
      · rw [hpush]
        rfl
      · rw [hpush] at htree
        cases (htree'.join hother connective).unique htree
  | @rename formula renamed names largest h hrename ih =>
      intro literals htree
      have halike := alike_of_rename hrename
      obtain ⟨others, hothers⟩ := exists_represents_clause halike htree
      exact halike.length_eq.symm.trans (ih hothers)

theorem Represents.eq_clause {literals : List Int} (h : formula.Represents (.clause literals))
    (hsize : formula.size = 1) : formula = Formula.clause literals := by
  obtain ⟨units⟩ := formula
  obtain ⟨unit, rfl⟩ := List.length_eq_one_iff.mp hsize
  cases h with
  | clause hunit =>
      cases hunit
      rfl

/-- Combining formulas combines their trees. -/
theorem Built.represents_push (h : left.Built) (h' : right.Built) (htree : left.Represents tree)
    (hother : right.Represents other) (connective : Connective) :
    (left.push connective right).Represents (.join connective tree other) := by
  rcases push_cases connective htree.isEmpty_eq hother.isEmpty_eq with
    ⟨mine, theirs, rfl, rfl, rfl, hpush⟩ | ⟨hnot, hpush⟩
  · rw [hpush, ← (represents_clause mine).unique htree, ← (represents_clause theirs).unique hother]
    exact represents_clause _
  · have hjoin : SyntaxTree.join connective tree other = .binary connective tree other := by
      unfold SyntaxTree.join
      split
      · exact absurd ⟨rfl, ⟨_, htree.eq_clause (h.size_eq_one htree)⟩, _, hother.eq_clause (h'.size_eq_one hother)⟩ hnot
      · rfl
    rw [hpush, hjoin]
    exact htree.join hother connective

/-- The operations work on formulas as on trees. In a formula that they make every subformula refers to earlier
places, and unless it is empty it stands for exactly one tree; it evaluates under every valuation in every number type,
to the degree of its tree. Negation and combination, with itself or another formula, are those of the trees. In exact
arithmetic degrees stay in the unit interval, and negation and combination apply to them, whether or not clauses are
merged. The empty formula adds nothing on the right, and takes on the right side where the connective has an
identity. -/
theorem built_represents_tree (hbuilt : formula.Built) :
    (∀ (place : Nat) (unit : Subformula), formula.units[place]? = some unit →
      ∀ operand ∈ unit.operands, operand < place) ∧
    (∀ {α : Type} [Scalar α] (valuation : Nat → α), ∃ degree? : Option α, formula.evaluate valuation = .ok degree? ∧
      (degree? = none ↔ formula = empty)) ∧
    (formula ≠ empty → ∃! tree, formula.Represents tree) ∧
    (∀ tree, formula.Represents tree →
      (∀ {α : Type} [Scalar α] (valuation : Nat → α), formula.evaluate valuation = .ok (some (tree.degree valuation))) ∧
      formula.negate.Represents (.negation tree) ∧
      ∀ other otherTree, other.Built → other.Represents otherTree → ∀ connective,
        (formula.push connective other).Represents (.join connective tree otherTree)) ∧
    (∀ valuation : Nat → ℚ, UnitValued valuation → ∀ a, formula.evaluate valuation = .ok (some a) →
      0 ≤ a ∧ a ≤ 1 ∧ formula.negate.evaluate valuation = .ok (some (1 - a)) ∧
      ∀ other, other.Built → ∀ b, other.evaluate valuation = .ok (some b) → ∀ connective,
        (formula.push connective other).evaluate valuation = .ok (some (connective.apply a b))) ∧
    (∀ connective, formula.push connective empty = formula) ∧
    (∀ connective, empty.push connective formula =
      if connective = .strongDisjunction ∨ connective = .maximum ∨ connective = .minimum then formula else empty) := by
  have hordered := hbuilt.ordered
  have hexists := hordered.exists_represents
  refine ⟨hordered, fun valuation => ?_, fun hne => ?_, fun tree htree => ?_, fun valuation hunit a ha => ?_,
    push_empty formula, fun connective => ?_⟩
  · by_cases hempty : formula = empty
    · exact ⟨none, hempty ▸ rfl, iff_of_true rfl hempty⟩
    · obtain ⟨tree, htree⟩ := hexists hempty
      exact ⟨_, hordered.evaluate_eq htree valuation, iff_of_false (Option.some_ne_none _) hempty⟩
  · obtain ⟨tree, htree⟩ := hexists hne
    exact ⟨tree, htree, fun other hother => hother.unique htree⟩
  · refine ⟨hordered.evaluate_eq htree, htree.negate, fun other otherTree hother hotherTree connective => ?_⟩
    exact hbuilt.represents_push hother htree hotherTree connective
  · have hnonempty : ∀ {other : Formula} {b : ℚ}, other.Denotes valuation b → other ≠ empty := by
      rintro other b hdenotes rfl
      cases hdenotes.isEmpty_eq
    have ha : formula.Denotes valuation a := ha
    obtain ⟨tree, htree⟩ := hexists (hnonempty ha)
    have hdegree : a = tree.degree valuation := ha.unique (hordered.evaluate_eq htree valuation)
    rw [hdegree]
    refine ⟨(tree.degree_mem hunit).1, (tree.degree_mem hunit).2, ?_, fun other hother b hb connective => ?_⟩
    · exact hordered.negate.evaluate_eq htree.negate valuation
    · have hb : other.Denotes valuation b := hb
      obtain ⟨otherTree, hotherTree⟩ := hother.ordered.exists_represents (hnonempty hb)
      have hother' : b = otherTree.degree valuation := hb.unique (hother.ordered.evaluate_eq hotherTree valuation)
      have hpush := hbuilt.represents_push hother htree hotherTree connective
      rw [hother', ← SyntaxTree.degree_join hunit connective]
      exact (hordered.push hother.ordered connective).evaluate_eq hpush valuation
  · rw [empty_push]
    cases connective <;> rfl

/-- Twice `¬(x₄ ⊕ ¬x₁₂)`, as the operations make it. -/
def twofold : Formula :=
  ⟨[.clause [4, -12], .negation 0, .clause [4, -12], .negation 2, .binary .strongDisjunction 1 3]⟩

theorem built_twofold : twofold.Built := by
  have hbase := ((Built.atom 1).push .strongDisjunction (.literal (-2))).negate
  exact (hbase.push .strongDisjunction hbase).rename (show Formula.rename _ ⟨[4], 10⟩ = .ok (twofold, 12) from rfl)

theorem built_represents_tree_twofold :
    (∃! tree, twofold.Represents tree) ∧
    (twofold.push .equivalence twofold).evaluate (fun index => if index = 4 then 1 / 8 else 3 / 4 : Nat → ℚ) =
      .ok (some (Connective.equivalence.apply 1 1)) := by
  obtain ⟨-, -, hunique, -, hdegrees, -⟩ := built_represents_tree built_twofold
  have hdegree : twofold.evaluate (fun index => if index = 4 then 1 / 8 else 3 / 4 : Nat → ℚ) = .ok (some 1) := by
    decide +kernel
  have hunit : UnitValued fun index => if index = 4 then 1 / 8 else 3 / 4 := by
    intro index
    dsimp only
    split_ifs <;> norm_num
  obtain ⟨-, -, -, hpush⟩ := hdegrees _ hunit 1 hdegree
  exact ⟨hunique (by decide), hpush twofold built_twofold 1 hdegree .equivalence⟩

end Formula

end ReluLogic
