import ReluLogic.Scalar

/-!
Settings of a translation run.
-/

namespace ReluLogic

/-- Settings of a translation run. -/
structure Config (α : Type) where
  /-- Search in partitions and join pieces in chunks. -/
  multithreading : Bool
  /-- The largest number of workers; without one the machine decides. -/
  maxThreads : Option Nat
  /-- Slack allowed when one piece is compared with another. -/
  latticeTolerance : α
  /-- Slack allowed by the oracle for feasibility and signs. -/
  feasibilityTolerance : α
  /-- Refuse to join pieces unless the lattice covering holds. -/
  checkLattice : Bool
  deriving Repr, DecidableEq

namespace Config

variable {α : Type} [Scalar α]

/-- All workers of the machine, a lattice slack of a hundred-thousandth, a feasibility slack of a
thousand-millionth, and the lattice check. -/
def standard : Config α where
  multithreading := true
  maxThreads := none
  latticeTolerance := Scalar.ofInt 1 / Scalar.ofInt 100000
  feasibilityTolerance := Scalar.ofInt 1 / Scalar.ofInt 1000000000
  checkLattice := true

/-- The standard settings on one worker. -/
def sequential : Config α :=
  { (standard : Config α) with multithreading := false }

/-- The settings with at most `count` workers, and at least one. -/
def withMaxThreads (config : Config α) (count : Nat) : Config α :=
  { config with maxThreads := some (max count 1) }

/-- The number of workers on a machine that offers `available` of them. -/
def threadBudget (config : Config α) (available : Nat) : Nat :=
  if config.multithreading then max (config.maxThreads.getD available) 1 else 1

end Config

end ReluLogic
