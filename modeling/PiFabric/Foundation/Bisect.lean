import Mathlib.Init

/-! The search for a large number that passes a test, by halving: whatever the test is, the number
that is found passes it, or it is the one to start from.
-/

namespace PiFabric

/-- Halve the range from `low` to `high` until nothing is left between. -/
def bisect (fits : Nat → Bool) (low high : Nat) : Nat :=
  if low < high then
    let middle := (low + high + 1) / 2
    if fits middle then bisect fits middle high else bisect fits low (middle - 1)
  else low
termination_by high - low
decreasing_by all_goals omega

variable (fits : Nat → Bool)

/-- What is found passes the test, unless it is where the search began. -/
theorem bisect_fits (low high : Nat)
    : bisect fits low high = low ∨ fits (bisect fits low high) = true := by
  induction low, high using bisect.induct fits with
  | case1 low high more middle passes ih =>
    rw [bisect, if_pos more, if_pos passes]
    rcases ih with stays | found
    · rw [stays]
      exact .inr passes
    · exact .inr found
  | case2 low high more middle fails ih =>
    rw [bisect, if_pos more, if_neg fails]
    exact ih
  | case3 low high done =>
    rw [bisect, if_neg done]
    exact .inl rfl

end PiFabric
