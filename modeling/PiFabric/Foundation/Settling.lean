import Mathlib

/-! Repeating a step a bounded number of times. A value that repeats once repeats for good.
-/

namespace PiFabric

variable {α : Type}

/-- One of the first `rounds` repetitions of `step`, or the next one, changes nothing. -/
def Settles (step : α → α) (rounds : Nat) (value : α) : Prop :=
  ∃ k ≤ rounds, step^[k + 1] value = step^[k] value

/-- From the round on that changes nothing, every round gives the same value. -/
theorem iterate_of_repeated {step : α → α} {value : α} {k n : Nat}
    (repeated : step^[k + 1] value = step^[k] value) (later : k ≤ n)
    : step^[n] value = step^[k] value := by
  have fixed : step (step^[k] value) = step^[k] value := by
    rw [← Function.iterate_succ_apply' step k value]
    exact repeated
  obtain ⟨more, rfl⟩ := Nat.exists_eq_add_of_le' later
  rw [Function.iterate_add_apply, Function.iterate_fixed fixed]

/-- A value settles within its rounds if and only if the round after them changes nothing. -/
theorem settles_iff {step : α → α} {rounds : Nat} {value : α}
    : Settles step rounds value ↔ step^[rounds + 1] value = step^[rounds] value := by
  constructor
  · intro settled
    obtain ⟨k, within, repeated⟩ := settled
    rw [iterate_of_repeated repeated (Nat.le_succ_of_le within),
      iterate_of_repeated repeated within]
  · intro repeated
    exact ⟨rounds, Nat.le_refl _, repeated⟩

instance [DecidableEq α] (step : α → α) (rounds : Nat) (value : α)
    : Decidable (Settles step rounds value) :=
  decidable_of_iff _ settles_iff.symm

end PiFabric
