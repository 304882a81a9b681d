import Mathlib.Data.List.Basic
import Mathlib.Tactic.Cases

/-! Feeds that name the keys each step of a keyed store changes.
A reader that knows the contents at one point and reads the named keys again knows the contents now.
-/

namespace PiFabric

namespace ChangeFeed

variable {κ ν : Type*}

/-- A step names exactly the keys whose contents it changes. -/
def Names (before : κ → ν) (keys : List κ) (after : κ → ν) : Prop :=
  ∀ key, key ∈ keys ↔ before key ≠ after key

/-- Steps one after the other, with all the keys that they name. -/
inductive Steps : (κ → ν) → List κ → (κ → ν) → Prop
  | done (contents : κ → ν) : Steps contents [] contents
  | step {first middle last : κ → ν} {earlier keys : List κ} (before : Steps first earlier middle)
      (names : Names middle keys last)
      : Steps first (earlier ++ keys) last

def refresh [DecidableEq κ] (view current : κ → ν) (keys : List κ) : κ → ν :=
  fun key => if key ∈ keys then current key else view key

/-- What no step names has not changed, by induction on the steps. -/
theorem Steps.unchanged {first last : κ → ν} {keys : List κ} (steps : Steps first keys last)
    {key : κ} (unnamed : key ∉ keys)
    : first key = last key := by
  induction steps with
  | done => rfl
  | step _ names ih =>
      rw [List.mem_append, not_or] at unnamed
      have same := ih unnamed.1
      have kept := (not_congr (names key)).mp unnamed.2
      exact same.trans (not_not.mp kept)

/-- Reading again at least the named keys brings a view of the first contents up to the last. -/
theorem Steps.refresh [DecidableEq κ] {first last : κ → ν} {keys listed : List κ}
    (steps : Steps first keys last) (all : ∀ key ∈ keys, key ∈ listed)
    : ChangeFeed.refresh first last listed = last := by
  funext key
  unfold ChangeFeed.refresh
  split
  · rfl
  · rename_i unlisted
    exact steps.unchanged fun named => unlisted (all key named)

end ChangeFeed

end PiFabric
