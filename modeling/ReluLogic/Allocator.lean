import ReluLogic.Formula.Basic

/-!
Allocation of propositional variables for one run. Variables are handed out by a counter that only
grows; the zero variable, the constants and the auxiliary multiples are remembered, so that each is
handed out once.
-/

namespace ReluLogic

/-- Variables remembered by denominator, in ascending order of the denominators. -/
structure Memo where
  entries : List (Nat × Nat)
  deriving Repr, DecidableEq

namespace Memo

def empty : Memo := ⟨[]⟩

def get? (memo : Memo) (denominator : Nat) : Option Nat :=
  (memo.entries.find? (·.1 == denominator)).map (·.2)

/-- Ordered entries with one put in its place; an entry with the same denominator is replaced. -/
def insertEntry (denominator index : Nat) : List (Nat × Nat) → List (Nat × Nat)
  | [] => [(denominator, index)]
  | entry :: rest =>
    if denominator < entry.1 then (denominator, index) :: entry :: rest
    else if denominator = entry.1 then (denominator, index) :: rest
    else entry :: insertEntry denominator index rest

def insert (memo : Memo) (denominator index : Nat) : Memo :=
  ⟨insertEntry denominator index memo.entries⟩

end Memo

/-- The state of allocation. -/
structure Allocator where
  /-- The variable handed out last; variables up to it are taken. -/
  counter : Nat
  /-- The variable of the zero formula. -/
  zero : Option Nat
  /-- The variable of `1 / d`, by `d`. -/
  constants : Memo
  /-- The variable of `d · (1 / d)`, by `d`. -/
  auxMultipliers : Memo
  deriving Repr, DecidableEq

/-- A variable that was asked for, and whether it is new. -/
inductive Allocation where
  | fresh (index : Nat)
  | existing (index : Nat)
  deriving Repr, DecidableEq

namespace Allocation

def index : Allocation → Nat
  | .fresh index | .existing index => index

def isFresh : Allocation → Bool
  | .fresh _ => true
  | .existing _ => false

end Allocation

namespace Allocator

/-- The allocator above the inputs `1` to `dim`. A dimension beyond the range of variables starts at
its end. -/
def ofDim (dim : Nat) : Allocator where
  counter := min dim variableMax
  zero := none
  constants := .empty
  auxMultipliers := .empty

/-- Hands out the next `count` variables; gives the first of them. -/
def freshBlock (count : Nat) : StateM Allocator Nat := fun allocator =>
  (allocator.counter + 1, { allocator with counter := allocator.counter + count })

/-- Hands out the next variable. -/
def fresh : StateM Allocator Nat :=
  freshBlock 1

/-- The variable of the zero formula, handed out on first use. -/
def zeroVariable : StateM Allocator Nat := do
  match (← get).zero with
  | some index => pure index
  | none =>
    let index ← fresh
    modify fun allocator => { allocator with zero := some index }
    pure index

/-- Hands out a variable and remembers it for `1 / denominator`. -/
def newConstant (denominator : Nat) : StateM Allocator Nat := do
  let index ← fresh
  modify fun allocator => { allocator with constants := allocator.constants.insert denominator index }
  pure index

/-- The variable of `denominator · (1 / denominator)`, handed out on first use. -/
def auxMultiplier (denominator : Nat) : StateM Allocator Allocation := do
  match (← get).auxMultipliers.get? denominator with
  | some index => pure (.existing index)
  | none =>
    let index ← fresh
    modify fun allocator =>
      { allocator with auxMultipliers := allocator.auxMultipliers.insert denominator index }
    pure (.fresh index)

/-- Moves the counter forward to `target`; it never moves back. -/
def jumpTo (allocator : Allocator) (target : Nat) : Except Error Allocator :=
  if target < allocator.counter then
    throw (.allocator (.jumpBack allocator.counter target))
  else
    pure { allocator with counter := target }

end Allocator

end ReluLogic
