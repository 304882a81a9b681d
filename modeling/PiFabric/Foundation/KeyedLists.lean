import Mathlib.Data.List.Nodup
import Mathlib.Data.List.Perm.Lattice

/-! Ordered lists with one value for each key. Two of them are told apart by a key's value or by the
order of the keys that they share.
-/

namespace PiFabric

namespace KeyedLists

variable {κ ν : Type*} [BEq κ] [LawfulBEq κ]

def keys (items : List (κ × ν)) : List κ :=
  items.map Prod.fst

variable {items : List (κ × ν)} {key : κ}

theorem lookup_eq_none_iff
    : items.lookup key = none ↔ key ∉ keys items := by
  induction items with
  | nil => simp [keys]
  | cons item rest ih =>
      rw [List.lookup_cons]
      by_cases same : key = item.1
      · simp [keys, same]
      · simp [keys, same, beq_eq_false_iff_ne.mpr same] at ih ⊢
        exact ih

/-- What a key is looked up to is its one item, by induction on the items. -/
theorem lookup_eq_some_iff (distinct : (keys items).Nodup) {value : ν}
    : items.lookup key = some value ↔ (key, value) ∈ items := by
  induction items with
  | nil => simp
  | cons item rest ih =>
      rw [keys, List.map_cons, List.nodup_cons] at distinct
      rw [List.lookup_cons, List.mem_cons]
      by_cases same : key = item.1
      · have absent : (key, value) ∉ rest := fun member =>
          distinct.1 (same ▸ List.mem_map_of_mem member)
        simp [same, Prod.ext_iff, eq_comm]
        intro member
        exact absurd (same ▸ member) absent
      · have other : (key, value) ≠ item := fun equal => same (congrArg Prod.fst equal)
        simp only [beq_eq_false_iff_ne.mpr same, other, false_or]
        exact ih distinct.2

def shared (items others : List (κ × ν)) : List κ :=
  (keys items).filter (· ∈ keys others)

end KeyedLists

end PiFabric
