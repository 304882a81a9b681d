import PiFabric.Foundation.JsMap
import PiFabric.Foundation.JsonObject

/-! The order in which an object lists its keys: array indices first, in ascending order, then the
other keys as they were added. Canonical forms sort the keys before they build the object.
-/

namespace PiFabric

open JsString

def decimalValue (digits : JsString) : Nat :=
  digits.foldl (fun total unit => total * 10 + (unit.toNat - 48)) 0

def arrayIndex? (key : JsString) : Option Nat :=
  if isDigits key && decimalValue key < 4294967295 then some (decimalValue key) else none

/-- Properties in enumeration order, from the order in which they were added. -/
def enumerated {α : Type} (key : α → JsString) (added : List α) : List α :=
  (added.filter fun item => (arrayIndex? (key item)).isSome).insertionSort
      (fun a b => (arrayIndex? (key a)).getD 0 ≤ (arrayIndex? (key b)).getD 0)
    ++ added.filter fun item => (arrayIndex? (key item)).isNone

/-- `Object.keys` of an object that is used as a map. -/
def objectKeys {ν : Type} (map : JsMap JsString ν) : List JsString :=
  enumerated id map.keys

namespace Json

def sortedMembers (members : Members) : Members :=
  enumerated Prod.fst (members.insertionSort fun a b => JsString.le a.1 b.1 = true)

mutual
/-- A value with the keys of every object in canonical order. -/
def canonical : Json → Json
  | null => .null
  | bool value => .bool value
  | number value => .number value
  | string value => .string value
  | array items => .array (canonicalItems items)
  | object members => .object (sortedMembers (canonicalMembers members))

def canonicalItems : List Json → List Json
  | [] => []
  | item :: rest => canonical item :: canonicalItems rest

def canonicalMembers : List (JsString × Json) → List (JsString × Json)
  | [] => []
  | member :: rest => (member.1, canonical member.2) :: canonicalMembers rest
end

end Json

end PiFabric

/-! Keys in the order of their code units. The order is linear, so a sorted list is determined by
its keys, and enumeration order is only another order of the same properties.
-/

namespace PiFabric

namespace JsString

theorem le_iff {left right : JsString} : JsString.le left right = true ↔ left ≤ right :=
  decide_eq_true_iff

instance : Std.Total fun left right : JsString => JsString.le left right = true where
  total left right := by
    simpa only [le_iff] using List.le_total left right

instance : IsTrans JsString fun left right => JsString.le left right = true where
  trans left middle right := by
    simpa only [le_iff] using List.le_trans

instance : Std.Antisymm fun left right : JsString => JsString.le left right = true where
  antisymm left right := by
    simpa only [le_iff] using List.le_antisymm

def sorted (keys : List JsString) : List JsString :=
  keys.insertionSort fun left right => JsString.le left right = true

theorem perm_sorted (keys : List JsString) : (sorted keys).Perm keys :=
  List.perm_insertionSort _ _

/-- The same keys sort to the same list. -/
theorem sorted_congr {left right : List JsString} (same : left.Perm right)
    : sorted left = sorted right :=
  ((perm_sorted left).trans (same.trans (perm_sorted right).symm)).eq_of_pairwise'
    (List.pairwise_insertionSort _ _) (List.pairwise_insertionSort _ _)

/-- Sorting and then selecting is selecting and then sorting. -/
theorem sorted_filter (keys : List JsString) (keep : JsString → Bool)
    : (sorted keys).filter keep = sorted (keys.filter keep) :=
  (((perm_sorted keys).filter keep).trans (perm_sorted _).symm).eq_of_pairwise'
    ((List.pairwise_insertionSort _ _).filter _) (List.pairwise_insertionSort _ _)

end JsString

/-- Enumeration only orders the properties. -/
theorem perm_enumerated {α : Type} (key : α → JsString) (added : List α)
    : (enumerated key added).Perm added := by
  unfold enumerated
  refine ((List.perm_insertionSort _ _).append_right _).trans ?_
  have others : (fun item : α => (arrayIndex? (key item)).isNone)
      = fun item => !(arrayIndex? (key item)).isSome := by
    funext item
    cases arrayIndex? (key item) <;> rfl
  rw [others]
  exact List.filter_append_perm _ _

namespace JsMap

variable {κ ν ν' : Type}

variable [DecidableEq κ]

/-- Binding the entries of a map into another, in any order, replaces what has their keys. -/
theorem get?_bindAll_entries (value : κ → ν → ν') (start : JsMap κ ν') {map : JsMap κ ν}
    {items : List (κ × ν)} (same : ∀ item, item ∈ items ↔ item ∈ map.entries) (key : κ)
    : (bindAll Prod.fst (fun item => value item.1 item.2) start items).get? key
      = ((map.get? key).map (value key)).or (start.get? key) := by
  rw [get?_bindAll]
  cases found : items.reverse.find? fun item => item.1 = key with
  | some item =>
      have named : item.1 = key := by simpa using List.find?_some found
      have bound : map.get? key = some item.2 := by
        rw [get?_eq_some_iff, ← same, ← named]
        exact List.mem_reverse.mp (List.mem_of_find?_eq_some found)
      rw [bound, ← named]
      rfl
  | none =>
      have absent : map.get? key = none := by
        rw [get?_eq_none_iff]
        intro inside
        obtain ⟨item, member, named⟩ := List.mem_map.mp inside
        have other := List.find?_eq_none.mp found item (List.mem_reverse.mpr ((same item).mpr member))
        exact other (decide_eq_true named)
      rw [absent]
      rfl

end JsMap

end PiFabric
