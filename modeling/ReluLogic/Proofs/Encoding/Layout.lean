import Mathlib.Logic.Relation
import ReluLogic.Proofs.Encoding.Constant
import ReluLogic.Proofs.Encoding.Returns

/-!
The layout of the variables of one allocator. What is remembered holds a stretch of variables: the zero variable
and a multiple hold one each, a constant holds its doubling chain as well. An allocator makes two moves only, it
goes forward or it remembers a stretch right above its counter; so stretches never meet, whatever computation
makes the moves and whether or not it succeeds.
-/

namespace ReluLogic

/-- Who holds variables of an allocator. -/
inductive Holder where
  | zero
  | constant (denominator : Nat)
  | auxMultiplier (denominator : Nat)
  deriving Repr, DecidableEq

namespace Holder

/-- The number of variables held: from the denominator three on the chain of a constant is part of it. -/
def width : Holder → Nat
  | .constant denominator => if 3 ≤ denominator then (denominator - 1).log2 + 2 else 1
  | .zero | .auxMultiplier _ => 1

theorem width_pos (holder : Holder) : 0 < holder.width := by
  cases holder with
  | constant denominator =>
      rw [width]
      split_ifs <;> omega
  | zero => exact Nat.one_pos
  | auxMultiplier _ => exact Nat.one_pos

end Holder

namespace Allocator

/-- The first variable of a holder, if it is remembered. -/
def first? (allocator : Allocator) : Holder → Option Nat
  | .zero => allocator.zero
  | .constant denominator => allocator.constants.get? denominator
  | .auxMultiplier denominator => allocator.auxMultipliers.get? denominator

/-- A variable belongs to a holder. -/
def Reserves (allocator : Allocator) (holder : Holder) (index : Nat) : Prop :=
  ∃ first, allocator.first? holder = some first ∧ first ≤ index ∧ index < first + holder.width

def remember (allocator : Allocator) (holder : Holder) (index : Nat) : Allocator :=
  match holder with
  | .zero => { allocator with zero := some index }
  | .constant denominator => { allocator with constants := allocator.constants.insert denominator index }
  | .auxMultiplier denominator =>
    { allocator with auxMultipliers := allocator.auxMultipliers.insert denominator index }

def moveTo (allocator : Allocator) (target : Nat) : Allocator :=
  { allocator with counter := target }

section Remembering

variable {allocator : Allocator} {holder other : Holder} {index first : Nat}

theorem first?_remember (allocator : Allocator) (holder other : Holder) (index : Nat) :
    (allocator.remember holder index).first? other =
      if other = holder then some index else allocator.first? other := by
  cases holder <;> cases other <;>
    simp only [remember, first?, Memo.get?_insert, reduceCtorEq, if_false, if_true, Holder.constant.injEq,
      Holder.auxMultiplier.injEq]

@[simp] theorem first?_moveTo (allocator : Allocator) (target : Nat) (holder : Holder) :
    (allocator.moveTo target).first? holder = allocator.first? holder := by
  cases holder <;> rfl

theorem reserves_first (h : allocator.first? holder = some first) : allocator.Reserves holder first :=
  ⟨first, h, le_rfl, Nat.lt_add_of_pos_right holder.width_pos⟩

/-- The variables behind a constant, up to the last doubling of its chain, belong to it. -/
theorem reserves_chain {denominator step : Nat} (h : allocator.constants.get? denominator = some first)
    (hthree : 3 ≤ denominator) (hstep : step ≤ (denominator - 1).log2) :
    allocator.Reserves (.constant denominator) (first + 1 + step) := by
  refine ⟨first, h, by omega, ?_⟩
  rw [Holder.width, if_pos hthree]
  omega

end Remembering

/-- The layout of an allocator that started at `base`: what is reserved was handed out, and no variable belongs to
two holders. -/
structure Layout (base : Nat) (allocator : Allocator) : Prop where
  base_le : base ≤ allocator.counter
  range : ∀ {holder index}, allocator.Reserves holder index → base < index ∧ index ≤ allocator.counter
  unique : ∀ {holder other index}, allocator.Reserves holder index → allocator.Reserves other index →
    holder = other

theorem layout_ofDim (dim : Nat) : (ofDim dim).Layout (ofDim dim).counter := by
  have hnone : ∀ {holder index}, ¬ (ofDim dim).Reserves holder index := by
    rintro (_ | _ | _) index ⟨first, hfirst, -⟩ <;> cases hfirst
  exact ⟨le_rfl, fun h => absurd h hnone, fun h => absurd h hnone⟩

/-- Variables count from one. -/
theorem Layout.zero_ne {base : Nat} {allocator : Allocator} (h : allocator.Layout base) : allocator.zero ≠ some 0 :=
  fun hzero => absurd (h.range (reserves_first (show allocator.first? .zero = some 0 from hzero))).1 (Nat.not_lt_zero _)

/-! ### Moves -/

/-- What an allocator does at a time: it goes forward, or it remembers a holder above its counter and goes past
all variables of the holder. -/
inductive Move : Allocator → Allocator → Prop
  | forward {allocator target} (h : allocator.counter ≤ target) : Move allocator (allocator.moveTo target)
  | remember {allocator target} (holder : Holder) (hnew : allocator.first? holder = none)
    (h : allocator.counter + holder.width ≤ target) :
    Move allocator ((allocator.remember holder (allocator.counter + 1)).moveTo target)

/-- Any number of moves. -/
def Moves : Allocator → Allocator → Prop :=
  Relation.ReflTransGen Move

section Moving

variable {before after : Allocator} {base : Nat} {holder : Holder} {index : Nat}

theorem Move.counter_le (h : Move before after) : before.counter ≤ after.counter := by
  cases h with
  | forward h => exact h
  | remember holder _ h => exact (Nat.le_add_right _ _).trans h

/-- A move that changes the state at all moves the counter forward: what is remembered needs variables. -/
theorem Move.eq_or_counter_lt (h : Move before after) : after = before ∨ before.counter < after.counter := by
  cases h with
  | forward h =>
      rcases h.eq_or_lt with rfl | hlt
      · exact Or.inl rfl
      · exact Or.inr hlt
  | remember holder _ h => exact Or.inr ((Nat.lt_add_of_pos_right holder.width_pos).trans_le h)

/-- What is remembered stays so. -/
theorem Move.keeps (h : Move before after) (holder : Holder) (hfirst : before.first? holder = some index) :
    after.first? holder = some index := by
  cases h with
  | forward => rwa [first?_moveTo]
  | remember other hnew =>
      rw [first?_moveTo, first?_remember, if_neg, hfirst]
      rintro rfl
      cases hfirst.symm.trans hnew

/-- A variable that is reserved after a move either was before or stands above the old counter and below the new
one; then there is only one holder that it can belong to. -/
theorem Move.reserves_or (h : Move before after) : (∀ {holder index}, after.Reserves holder index →
      before.Reserves holder index) ∨
    ∃ holder, ∀ {other index}, after.Reserves other index → before.Reserves other index ∨
      other = holder ∧ before.counter < index ∧ index ≤ after.counter := by
  cases h with
  | forward =>
      refine Or.inl fun {holder index} hreserves => ?_
      obtain ⟨first, hfirst, hrange⟩ := hreserves
      rw [first?_moveTo] at hfirst
      exact ⟨first, hfirst, hrange⟩
  | remember holder _ hwidth =>
      refine Or.inr ⟨holder, fun {other index} hreserves => ?_⟩
      obtain ⟨first, hfirst, hlow, hhigh⟩ := hreserves
      rw [first?_moveTo, first?_remember] at hfirst
      split_ifs at hfirst with hother
      · cases hfirst
        subst hother
        exact Or.inr ⟨rfl, hlow, by simp only [moveTo]; omega⟩
      · exact Or.inl ⟨first, hfirst, hlow, hhigh⟩

/-- A move keeps the layout. -/
theorem Move.layout (h : Move before after) (hlayout : before.Layout base) : after.Layout base := by
  have hcounter := h.counter_le
  have hrange : ∀ {holder index}, before.Reserves holder index → base < index ∧ index ≤ after.counter :=
    fun hreserves => ⟨(hlayout.range hreserves).1, (hlayout.range hreserves).2.trans hcounter⟩
  have hbase := hlayout.base_le.trans hcounter
  rcases h.reserves_or with hold | ⟨holder, hnew⟩
  · exact ⟨hbase, fun hreserves => hrange (hold hreserves),
      fun hreserves hother => hlayout.unique (hold hreserves) (hold hother)⟩
  · have habove : ∀ {other index}, before.Reserves other index → ¬ before.counter < index :=
      fun hreserves => not_lt.mpr (hlayout.range hreserves).2
    refine ⟨hbase, fun {other index} hreserves => ?_, fun {first second index} hfirst hsecond => ?_⟩
    · rcases hnew hreserves with hreserves | ⟨-, hlt, hle⟩
      · exact hrange hreserves
      · exact ⟨hlayout.base_le.trans_lt hlt, hle⟩
    · rcases hnew hfirst with hfirst | ⟨rfl, hlt, -⟩ <;> rcases hnew hsecond with hsecond | ⟨rfl, hlt', -⟩
      · exact hlayout.unique hfirst hsecond
      · exact absurd hlt' (habove hfirst)
      · exact absurd hlt (habove hsecond)
      · rfl

/-- A holder that is remembered after a move was so before, or its variables are new. -/
theorem Move.first?_or (h : Move before after) (hfirst : after.first? holder = some index) :
    before.first? holder = some index ∨ before.counter < index ∧ index ≤ after.counter := by
  cases h with
  | forward =>
      rw [first?_moveTo] at hfirst
      exact Or.inl hfirst
  | remember other _ hwidth =>
      rw [first?_moveTo, first?_remember] at hfirst
      split_ifs at hfirst
      · cases hfirst
        have hpos := other.width_pos
        exact Or.inr ⟨Nat.lt_succ_self _, by simp only [moveTo]; omega⟩
      · exact Or.inl hfirst

theorem Moves.counter_le (h : before.Moves after) : before.counter ≤ after.counter := by
  induction h with
  | refl => exact le_rfl
  | tail _ hmove ih => exact ih.trans hmove.counter_le

theorem Moves.eq_or_counter_lt (h : before.Moves after) : after = before ∨ before.counter < after.counter := by
  induction h with
  | refl => exact Or.inl rfl
  | tail hmoves hmove ih =>
      rcases hmove.eq_or_counter_lt with rfl | hlt
      · exact ih
      · exact Or.inr ((Moves.counter_le hmoves).trans_lt hlt)

theorem Moves.keeps (h : before.Moves after) (holder : Holder) (hfirst : before.first? holder = some index) :
    after.first? holder = some index := by
  induction h with
  | refl => exact hfirst
  | tail _ hmove ih => exact hmove.keeps holder ih

/-- No variable is taken from its holder. -/
theorem Moves.reserves (h : before.Moves after) (hreserves : before.Reserves holder index) :
    after.Reserves holder index := by
  obtain ⟨first, hfirst, hrange⟩ := hreserves
  exact ⟨first, h.keeps _ hfirst, hrange⟩

theorem Moves.layout (h : before.Moves after) (hlayout : before.Layout base) : after.Layout base := by
  induction h with
  | refl => exact hlayout
  | tail _ hmove ih => exact hmove.layout ih

theorem Moves.first?_or (h : before.Moves after) (hfirst : after.first? holder = some index) :
    before.first? holder = some index ∨ before.counter < index ∧ index ≤ after.counter := by
  induction h with
  | refl => exact Or.inl hfirst
  | tail hmoves hmove ih =>
      rcases hmove.first?_or hfirst with hfirst | ⟨hlt, hle⟩
      · rcases ih hfirst with hfirst | ⟨hlt, hle⟩
        · exact Or.inl hfirst
        · exact Or.inr ⟨hlt, hle.trans hmove.counter_le⟩
      · exact Or.inr ⟨(Moves.counter_le hmoves).trans_lt hlt, hle⟩

end Moving

end Allocator

namespace Encoding

/-! ### Computations -/

/-- Whatever the outcome, the computation makes moves. -/
def Moves {β : Type} (computation : Encoding β) : Prop :=
  ∀ before : Allocator, before.Moves (computation.run.run before).2

variable {β γ : Type} {computation : Encoding β} {next : β → Encoding γ} {before after : Allocator}
  {denominator : Nat}

theorem Returns.moves {result : β} (h : computation.Returns before result after) (hmoves : computation.Moves) :
    before.Moves after := by
  have hafter := hmoves before
  rwa [h] at hafter

theorem moves_pure (result : β) : (pure result : Encoding β).Moves :=
  fun _ => .refl

theorem moves_throw (error : Error) : (throw error : Encoding β).Moves :=
  fun _ => .refl

theorem moves_get : (get : Encoding Allocator).Moves :=
  fun _ => .refl

theorem Moves.bind (h : computation.Moves) (h' : ∀ result, (next result).Moves) :
    (computation >>= next).Moves := by
  intro before
  rw [run_bind]
  have hfirst := h before
  rcases hrun : computation.run.run before with ⟨error | result, middle⟩
  · rw [hrun] at hfirst
    exact hfirst
  · rw [hrun] at hfirst
    exact Relation.ReflTransGen.trans hfirst (h' result middle)

theorem moves_freshBlock (count : Nat) : (liftM (Allocator.freshBlock count) : Encoding Nat).Moves :=
  fun before => .single (.forward (Nat.le_add_right before.counter count))

theorem moves_zeroVariable : (liftM Allocator.zeroVariable : Encoding Nat).Moves := by
  rintro ⟨counter, zero, constants, auxMultipliers⟩
  cases zero with
  | none => exact .single (.remember .zero rfl le_rfl)
  | some index => exact .refl

theorem moves_zeroFormula : (liftM zeroFormula : Encoding Formula).Moves := by
  rintro ⟨counter, zero, constants, auxMultipliers⟩
  cases zero with
  | none => exact .single (.remember .zero rfl le_rfl)
  | some index => exact .refl

theorem moves_auxMultiplier (denominator : Nat) :
    (liftM (Allocator.auxMultiplier denominator) : Encoding Allocation).Moves := by
  intro before
  show before.Moves ((Allocator.auxMultiplier denominator).run before).2
  rcases haux : before.auxMultipliers.get? denominator with _ | index
  · rw [run_auxMultiplier_of_none haux]
    exact .single (.remember (.auxMultiplier denominator) haux le_rfl)
  · rw [run_auxMultiplier_of_some haux]
    exact .refl

theorem moves_multiple (n : Nat) (term : Formula) : (liftM (multiple n term) : Encoding Modsat).Moves := by
  rw [multiple]
  split_ifs
  · exact moves_zeroFormula
  · exact moves_pure _
  · exact moves_freshBlock _

theorem moves_chainMultiple (n index : Nat) : (liftM (chainMultiple n index) : Encoding Formula).Moves := by
  rw [chainMultiple]
  split_ifs
  · exact moves_zeroFormula
  · exact moves_pure _
  · exact moves_pure _

/-- A constant below three is remembered on its own, and its multiple makes the moves of a multiple. -/
theorem moves_newConstant_of_lt (hnew : before.constants.get? denominator = none) (hlt : denominator < 3) :
    before.Moves ((Allocator.newConstant denominator).run before).2 := by
  refine .single (.remember (.constant denominator) hnew ?_)
  rw [Holder.width, if_neg (not_le.mpr hlt)]

/-- From three on the constant and its chain are one stretch. -/
theorem moves_defineConstant_of_le (hnew : before.constants.get? denominator = none) (hthree : 3 ≤ denominator) :
    before.Moves ((defineConstant denominator).run.run before).2 := by
  have hrun := returns_defineConstant (by omega) (run_multiple_of_two_le (show 2 ≤ denominator - 1 by omega)
    (.atom (before.counter + 1)) { before with counter := before.counter + 1 })
  rw [hrun]
  refine .single (.remember (.constant denominator) hnew ?_)
  rw [Holder.width, if_pos hthree]
  show before.counter + ((denominator - 1).log2 + 2) ≤ before.counter + 1 + ((denominator - 1).log2 + 1)
  omega

theorem moves_defineConstant (hnew : before.constants.get? denominator = none) :
    before.Moves ((defineConstant denominator).run.run before).2 := by
  rcases Nat.lt_or_ge denominator 3 with hlt | hthree
  · rw [defineConstant]
    split_ifs
    · exact .refl
    · exact Relation.ReflTransGen.trans (moves_newConstant_of_lt hnew hlt)
        ((moves_multiple _ _).bind (fun rest => moves_pure _) _)
  · exact moves_defineConstant_of_le hnew hthree

theorem moves_constant (denominator : Nat) : (constant denominator).Moves := by
  intro before
  rw [constant, run_get_bind]
  cases hconstant : before.constants.get? denominator with
  | none => exact moves_defineConstant hconstant
  | some index => exact .refl

theorem moves_wholeMultiple (constant denominator : Nat) : (wholeMultiple constant denominator).Moves :=
  (moves_auxMultiplier denominator).bind fun _ => moves_pure _

theorem moves_multiplyConstant (numerator denominator : Nat) : (multiplyConstant numerator denominator).Moves := by
  refine moves_get.bind fun before => ?_
  cases before.constants.get? denominator with
  | none => exact moves_throw _
  | some constant =>
      show (if denominator ≤ 2 then _ else _ : Encoding Modsat).Moves
      split_ifs
      · exact moves_multiple _ _
      · exact moves_zeroFormula.bind fun _ => moves_pure _
      · exact moves_pure _
      · exact moves_wholeMultiple _ _
      · exact moves_throw _

theorem moves_inputTerm (term : ScaledTerm) (constant : Nat) (definition : List Formula) :
    (inputTerm term constant definition).Moves := by
  rw [inputTerm]
  split_ifs
  · exact moves_throw _
  all_goals
    refine (moves_freshBlock 1).bind fun aux => (moves_multiple _ _).bind fun large => ?_
  · exact moves_pure _
  · exact (moves_chainMultiple _ _).bind fun _ => moves_pure _
  · exact (moves_chainMultiple _ _).bind fun _ => moves_pure _

theorem moves_termPart (term : ScaledTerm) : (termPart term).Moves := by
  refine (moves_constant _).bind fun ⟨index, definition⟩ => ?_
  show (if term.input = 0 then _ else _ : Encoding Part).Moves
  split_ifs
  · exact (moves_multiplyConstant _ _).bind fun _ => moves_pure _
  · exact moves_inputTerm _ _ _

theorem moves_addTerm (group : Modsat) (term : ScaledTerm) : (addTerm group term).Moves := by
  rw [addTerm]
  split_ifs
  · exact moves_pure _
  · exact (moves_termPart term).bind fun _ => moves_pure _

theorem moves_foldlM {δ : Type} {step : γ → δ → Encoding γ} (h : ∀ state item, (step state item).Moves)
    (items : List δ) : ∀ state, (items.foldlM step state).Moves := by
  induction items with
  | nil => exact moves_pure
  | cons item items ih =>
      intro state
      rw [List.foldlM_cons]
      exact (h state item).bind ih

theorem moves_group (terms : List ScaledTerm) : (group terms).Moves := by
  rw [group]
  split_ifs
  · exact moves_zeroFormula.bind fun _ => moves_pure _
  · exact moves_foldlM moves_addTerm terms _

theorem moves_ofTerms (scale : Nat) (terms : List ScaledTerm) : (ofTerms scale terms).Moves :=
  (moves_group _).bind fun _ => (moves_group _).bind fun _ => (moves_multiple _ _).bind fun _ => moves_pure _

theorem moves_encode (coefficients : List Fraction) : (encode coefficients).Moves := by
  rw [encode]
  split_ifs
  · exact moves_zeroFormula.bind fun _ => moves_pure _
  · rcases prepare coefficients with fault | ⟨scale, terms⟩
    · exact moves_throw _
    · exact moves_ofTerms scale terms

end Encoding

end ReluLogic
