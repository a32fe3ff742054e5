import ReluLogic.Formula.Text
import ReluLogic.Proofs.Text.Decipherable

/-!
The text of a translation tells the translation. A line ends at its line feed, and its kind tag fills a field of its own
width; a formula ends where no line follows, the definitions of a piece where no further formula follows, and the text
with the last piece. So two translations have the same text exactly if they have the same largest variable, the same
joined formula and, piece by piece, the same definitions. The formulas of the pieces themselves are not in the text.
-/

namespace ReluLogic

open Text Numeral

/-! ### Kind tags -/

/-- A label without blanks that is no longer than the field of kind tags. -/
structure IsTag (label : String) : Prop where
  unbroken : ∀ c ∈ label.toList, (c != ' ') = true
  length_le : label.length ≤ 11

theorem IsTag.length_kindField {label : String} (h : IsTag label) : (kindField label).length = 11 := by
  rw [kindField, List.length_append, List.length_replicate, String.length_toList]
  exact Nat.add_sub_of_le h.length_le

/-- The padding of a field is no part of its tag. -/
theorem IsTag.eq_of_kindField {first second : String} (hfirst : IsTag first) (hsecond : IsTag second)
    (h : kindField first = kindField second) : first = second := by
  have hpadding : ∀ count, Clear {c | (c != ' ') = true} (List.replicate count ' ') := by
    intro count c hc hmem
    rw [List.eq_of_mem_replicate (List.mem_of_mem_head? hc)] at hmem
    exact absurd hmem (by decide)
  exact String.toList_inj.mp (run_inj hfirst.unbroken hsecond.unbroken (hpadding _) (hpadding _) h).1

theorem Connective.isTag_label (connective : Connective) : IsTag connective.label := by
  cases connective <;> exact ⟨by simp [label], by decide⟩

theorem Connective.label_injective : Function.Injective Connective.label := by
  intro first second
  cases first <;> cases second <;> decide

namespace Subformula

variable {first second : Subformula} {rest other : List Char}

theorem isTag_kind (unit : Subformula) : IsTag unit.kind := by
  cases unit with
  | clause literals => exact ⟨by simp [kind], (by decide : "Clause".length ≤ 11)⟩
  | negation operand => exact ⟨by simp [kind], (by decide : "Negation".length ≤ 11)⟩
  | binary connective left right => exact connective.isTag_label

/-! ### Lines -/

/-- A list of literals ends where neither a digit nor a minus sign follows. -/
theorem decipherable_literals :
    Decipherable (fun literals : List Int => literals.flatMap fun literal => ofInt literal ++ [' ']) signs := by
  have hspace : ' ' ∉ digits := (by decide : ¬ isDigit ' ' = true)
  have hall : Itemized (fun _ (literal : Int) => ofInt literal ++ [' '])
      (fun _ literals => literals.flatMap fun literal => ofInt literal ++ [' ']) :=
    ⟨fun _ => rfl, fun _ _ _ => rfl⟩
  rw [← Set.union_empty signs]
  exact hall.decipherable (fun _ => decipherable_ofInt.ended hspace)
    (fun _ literal => (startsIn_ofInt literal).append _) (Set.disjoint_empty _) 0

/-- A number with an end mark that is no digit can be told in front of every text. -/
theorem place_inj {c : Char} {left right : Nat} (hc : ¬ isDigit c = true)
    (heq : ofNat (left + 1) ++ c :: rest = ofNat (right + 1) ++ c :: other) : left = right ∧ rest = other := by
  obtain ⟨hplace, hrest⟩ := decipherable_ofNat (clear_cons hc _) (clear_cons hc _) heq
  exact ⟨Nat.succ.inj hplace, (List.cons.inj hrest).2⟩

/-- Lines of one kind tell their operands. -/
theorem operands_inj (hkind : first.kind = second.kind)
    (heq : first.operandText ++ '\n' :: rest = second.operandText ++ '\n' :: other) :
    first = second ∧ rest = other := by
  have hclause : ∀ connective : Connective, connective.label ≠ "Clause" := by
    intro connective
    cases connective <;> decide
  have hnegation : ∀ connective : Connective, connective.label ≠ "Negation" := by
    intro connective
    cases connective <;> decide
  cases first with
  | clause literals =>
      cases second with
      | clause literals' =>
          have hfeed : '\n' ∉ signs := by
            rintro (hminus | hdigit)
            · exact absurd hminus (by decide)
            · exact absurd hdigit (by decide : ¬ isDigit '\n' = true)
          obtain ⟨rfl, hrest⟩ := decipherable_literals (clear_cons hfeed _) (clear_cons hfeed _) heq
          exact ⟨rfl, (List.cons.inj hrest).2⟩
      | negation operand => exact absurd hkind (by decide : "Clause" ≠ "Negation")
      | binary connective left right => exact absurd hkind.symm (hclause connective)
  | negation operand =>
      cases second with
      | clause literals => exact absurd hkind (by decide : "Negation" ≠ "Clause")
      | negation operand' =>
          obtain ⟨rfl, hrest⟩ := place_inj (by decide) heq
          exact ⟨rfl, hrest⟩
      | binary connective left right => exact absurd hkind.symm (hnegation connective)
  | binary connective left right =>
      cases second with
      | clause literals => exact absurd hkind (hclause connective)
      | negation operand => exact absurd hkind (hnegation connective)
      | binary connective' left' right' =>
          obtain rfl := Connective.label_injective hkind
          rw [operandText, operandText, List.append_assoc, List.append_assoc] at heq
          obtain ⟨rfl, hright⟩ := place_inj (by decide) heq
          obtain ⟨rfl, hrest⟩ := place_inj (by decide) hright
          exact ⟨rfl, hrest⟩

theorem line_append (unit : Subformula) (index : Nat) (rest : List Char) :
    unit.line index ++ rest = "Unit ".toList ++ (ofNat (index + 1) ++ (" :: ".toList ++
      (kindField unit.kind ++ (" :: ".toList ++ (unit.operandText ++ '\n' :: rest))))) := by
  unfold line
  simp only [List.append_assoc, List.singleton_append]

/-- A line tells its subformula in front of every text. -/
theorem decipherable_line (index : Nat) : Decipherable (fun unit : Subformula => unit.line index) ∅ := by
  intro first second rest other _ _ heq
  rw [line_append, line_append] at heq
  obtain ⟨hfield, hoperands⟩ := List.append_inj
    (List.append_cancel_left (List.append_cancel_left (List.append_cancel_left heq)))
    (first.isTag_kind.length_kindField.trans second.isTag_kind.length_kindField.symm)
  exact operands_inj (first.isTag_kind.eq_of_kindField second.isTag_kind hfield) (List.append_cancel_left hoperands)

end Subformula

/-! ### Formulas -/

theorem Formula.decipherable_linesFrom (index : Nat) : Decipherable (Formula.linesFrom index) {'U'} := by
  have hall : Itemized (fun index (unit : Subformula) => unit.line index) Formula.linesFrom :=
    ⟨fun _ => rfl, fun _ _ _ => rfl⟩
  rw [← Set.union_empty {'U'}]
  exact hall.decipherable Subformula.decipherable_line (fun _ _ => ⟨'U', Set.mem_singleton _, rfl⟩)
    (Set.disjoint_empty _) index

theorem Formula.decipherable_text : Decipherable Formula.text {'U'} := by
  intro first second rest other hrest hother heq
  obtain ⟨hunits, hend⟩ := Formula.decipherable_linesFrom 0 hrest hother heq
  exact ⟨congrArg Formula.mk hunits, hend⟩

namespace Modsat

/-- The heading and the lines of the defining formula at place `index`. -/
def block (index : Nat) (formula : Formula) : List Char :=
  "Formula ".toList ++ ofNat (index + 1) ++ ":\n".toList ++ formula.text

theorem itemized_blocks : Itemized block blocksFrom :=
  ⟨fun _ => rfl, fun _ _ _ => rfl⟩

/-- Definitions end where neither a line nor a heading of a formula follows. -/
theorem decipherable_blocksFrom (index : Nat) : Decipherable (blocksFrom index) {'F', 'U'} := by
  have hdisjoint : Disjoint ({'F'} : Set Char) {'U'} := Set.disjoint_singleton.mpr (by decide)
  exact itemized_blocks.decipherable (fun _ => Formula.decipherable_text.prefixed _)
    (fun _ _ => ⟨'F', Set.mem_singleton _, rfl⟩) hdisjoint index

end Modsat

namespace Limodsat

/-- The heading and the definitions of the piece at place `index`. -/
def paragraph (index : Nat) (defining : List Formula) : List Char :=
  "\n-= Linear Piece ".toList ++ ofNat (index + 1) ++ " =-\n".toList ++ Modsat.blocksFrom 0 defining

/-- Pieces are written by their definitions alone. -/
def paragraphsFrom (index : Nat) (definitions : List (List Formula)) : List Char :=
  piecesFrom index (definitions.map (Modsat.mk Formula.empty))

theorem itemized_paragraphs : Itemized paragraph paragraphsFrom :=
  ⟨fun _ => rfl, fun _ _ _ => rfl⟩

theorem piecesFrom_eq (index : Nat) (pieces : List Modsat) :
    piecesFrom index pieces = paragraphsFrom index (pieces.map Modsat.defining) := by
  induction pieces generalizing index with
  | nil => rfl
  | cons modsat pieces ih =>
      have hpiece : piecesFrom index (modsat :: pieces) =
          paragraph index modsat.defining ++ piecesFrom (index + 1) pieces := rfl
      rw [hpiece, ih, List.map_cons, itemized_paragraphs.cons]

theorem decipherable_paragraphsFrom (index : Nat) : Decipherable (paragraphsFrom index) {'\n', 'F', 'U'} := by
  have hdisjoint : Disjoint ({'\n'} : Set Char) {'F', 'U'} := Set.disjoint_singleton_left.mpr (by decide)
  exact itemized_paragraphs.decipherable (fun _ => (Modsat.decipherable_blocksFrom 0).prefixed _)
    (fun _ _ => ⟨'\n', Set.mem_singleton _, rfl⟩) hdisjoint index

theorem text_append (limodsat : Limodsat) :
    limodsat.text = "-= Formula phi =- MAXVAR ".toList ++ (ofNat limodsat.maxVariable ++ ("\n\n".toList ++
      (limodsat.lattice.text ++ ("\n-= MODSAT Set Phi =-\n".toList ++
        paragraphsFrom 0 (limodsat.pieces.map Modsat.defining))))) := by
  unfold text
  simp only [piecesFrom_eq, List.append_assoc]

/-- The text of a translation tells its largest variable, the joined formula and the definitions of every piece, and it
depends on nothing else. -/
theorem text_eq_iff (first second : Limodsat) :
    first.text = second.text ↔ first.maxVariable = second.maxVariable ∧ first.lattice.units = second.lattice.units ∧
      first.pieces.map Modsat.defining = second.pieces.map Modsat.defining := by
  rw [text_append, text_append]
  constructor
  · intro heq
    have hdigit : '\n' ∉ digits := (by decide : ¬ isDigit '\n' = true)
    have hunit : '\n' ∉ ({'U'} : Set Char) := by decide
    have hblank : ∀ rest, Clear digits ("\n\n".toList ++ rest) := fun _ => clear_cons hdigit _
    have hheading : ∀ rest, Clear {'U'} ("\n-= MODSAT Set Phi =-\n".toList ++ rest) := fun _ => clear_cons hunit _
    obtain ⟨hvariable, heq⟩ := decipherable_ofNat (hblank _) (hblank _) (List.append_cancel_left heq)
    obtain ⟨hlattice, heq⟩ := Formula.decipherable_text (hheading _) (hheading _) (List.append_cancel_left heq)
    have hpieces := List.append_cancel_left heq
    rw [← List.append_nil (paragraphsFrom _ _), ← List.append_nil (paragraphsFrom _ (second.pieces.map _))] at hpieces
    have hend : Clear {'\n', 'F', 'U'} [] := fun _ hnone => by cases hnone
    exact ⟨hvariable, congrArg Formula.units hlattice, (decipherable_paragraphsFrom 0 hend hend hpieces).1⟩
  · rintro ⟨hvariable, hlattice, hpieces⟩
    rw [hvariable, hpieces, Formula.text, hlattice, Formula.text]

end Limodsat

end ReluLogic
