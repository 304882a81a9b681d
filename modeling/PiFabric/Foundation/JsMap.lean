import Mathlib

/-! JavaScript's `Map`: entries in insertion order, at most one for each key.
Setting a key that is present keeps its place.
-/

namespace PiFabric

/-- A `Map`, as the list of its entries. -/
structure JsMap (κ ν : Type*) where
  entries : List (κ × ν)
  distinct : (entries.map Prod.fst).Nodup

namespace JsMap

variable {κ ν : Type*}

theorem ext {left right : JsMap κ ν} (h : left.entries = right.entries) : left = right := by
  cases left
  cases right
  simpa using h

def empty : JsMap κ ν where
  entries := []
  distinct := List.nodup_nil

instance : Inhabited (JsMap κ ν) := ⟨empty⟩

def keys (map : JsMap κ ν) : List κ :=
  map.entries.map Prod.fst

def values (map : JsMap κ ν) : List ν :=
  map.entries.map Prod.snd

def size (map : JsMap κ ν) : Nat :=
  map.entries.length

variable [DecidableEq κ]

def get? (map : JsMap κ ν) (key : κ) : Option ν :=
  (map.entries.find? (fun entry => entry.1 = key)).map Prod.snd

def has (map : JsMap κ ν) (key : κ) : Bool :=
  map.entries.any (fun entry => entry.1 = key)

/-- The entries with `key` bound to `value`, in its place where it has one. -/
def setEntries (key : κ) (value : ν) : List (κ × ν) → List (κ × ν)
  | [] => [(key, value)]
  | entry :: rest =>
      if entry.1 = key then (key, value) :: rest else entry :: setEntries key value rest

/-- Setting adds no key but its own, by induction over the entries. -/
theorem setEntries_keys (key : κ) (value : ν) (entries : List (κ × ν))
    : (setEntries key value entries).map Prod.fst
      = if key ∈ entries.map Prod.fst then entries.map Prod.fst
        else entries.map Prod.fst ++ [key] := by
  induction entries with
  | nil => simp [setEntries]
  | cons entry rest ih =>
      by_cases same : entry.1 = key
      · simp [setEntries, same]
      · have other : ¬key = entry.1 := fun h => same h.symm
        simp only [setEntries, if_neg same, List.map_cons, ih, List.mem_cons, other, false_or]
        split <;> rfl

def set (map : JsMap κ ν) (key : κ) (value : ν) : JsMap κ ν where
  entries := setEntries key value map.entries
  distinct := by
    rw [setEntries_keys]
    split
    · exact map.distinct
    · next absent =>
        exact map.distinct.append (List.nodup_singleton key)
          (List.disjoint_singleton.mpr absent)

def delete (map : JsMap κ ν) (key : κ) : JsMap κ ν where
  entries := map.entries.filter (fun entry => ¬entry.1 = key)
  distinct := map.distinct.sublist (List.filter_sublist.map Prod.fst)

/-- The entries that satisfy a test, in order. -/
def filter (map : JsMap κ ν) (keep : κ → ν → Bool) : JsMap κ ν where
  entries := map.entries.filter (fun entry => keep entry.1 entry.2)
  distinct := map.distinct.sublist (List.filter_sublist.map Prod.fst)

@[simp] theorem get?_empty (key : κ) : (empty : JsMap κ ν).get? key = none := rfl

variable {map : JsMap κ ν} {key : κ} {value : ν}

/-- What a key is bound to is its one entry. -/
theorem get?_eq_some_iff
    : map.get? key = some value ↔ (key, value) ∈ map.entries := by
  cases map with
  | mk entries distinct =>
      simp only [get?]
      induction entries with
      | nil => simp
      | cons entry rest ih =>
          simp only [List.map_cons, List.nodup_cons] at distinct
          by_cases same : entry.1 = key
          · have absent : (key, value) ∉ rest := by
              intro member
              exact distinct.1 (List.mem_map.mpr ⟨(key, value), member, same.symm⟩)
            simp only [List.find?_cons, same, decide_true, Option.map_some, Option.some.injEq,
              List.mem_cons, absent, or_false, Prod.ext_iff, true_and]
            exact eq_comm
          · have other : ¬(key, value) = entry := by
              intro h
              exact same (congrArg Prod.fst h).symm
            simp only [List.find?_cons, same, decide_false, List.mem_cons, other, false_or]
            exact ih distinct.2

theorem get?_eq_none_iff
    : map.get? key = none ↔ key ∉ map.keys := by
  simp only [get?, Option.map_eq_none_iff, List.find?_eq_none, keys, List.mem_map,
    decide_eq_true_eq]
  constructor
  · intro h present
    obtain ⟨entry, member, same⟩ := present
    exact h entry member same
  · intro h entry member same
    exact h ⟨entry, member, same⟩

theorem has_iff : map.has key = true ↔ key ∈ map.keys := by
  simp only [has, List.any_eq_true, decide_eq_true_eq, keys, List.mem_map]

theorem has_of_get? (h : map.get? key = some value)
    : map.has key = true :=
  has_iff.mpr (List.mem_map_of_mem (get?_eq_some_iff.mp h))

variable {entries : List (κ × ν)}

/-- Setting a key binds it and leaves the others, by induction over the entries. -/
theorem mem_setEntries (distinct : (entries.map Prod.fst).Nodup) {entry : κ × ν}
    : entry ∈ setEntries key value entries
      ↔ entry = (key, value) ∨ entry ∈ entries ∧ entry.1 ≠ key := by
  induction entries with
  | nil => simp [setEntries]
  | cons head rest ih =>
      simp only [List.map_cons, List.nodup_cons] at distinct
      by_cases same : head.1 = key
      · have absent (inside : entry ∈ rest) : entry.1 ≠ key := by
          intro equal
          exact distinct.1 (List.mem_map.mpr ⟨entry, inside, equal.trans same.symm⟩)
        simp only [setEntries, if_pos same, List.mem_cons]
        constructor
        · intro h
          rcases h with h | h
          · exact .inl h
          · exact .inr ⟨.inr h, absent h⟩
        · intro h
          rcases h with h | ⟨h | h, other⟩
          · exact .inl h
          · rw [h] at other
            exact absurd same other
          · exact .inr h
      · simp only [setEntries, if_neg same, List.mem_cons, ih distinct.2]
        constructor
        · intro h
          rcases h with h | h | ⟨h, other⟩
          · exact .inr ⟨.inl h, by rwa [h]⟩
          · exact .inl h
          · exact .inr ⟨.inr h, other⟩
        · intro h
          rcases h with h | ⟨h | h, other⟩
          · exact .inr (.inl h)
          · exact .inl h
          · exact .inr (.inr ⟨h, other⟩)

theorem get?_set (map : JsMap κ ν) (key : κ) (value : ν) (other : κ)
    : (map.set key value).get? other = if other = key then some value else map.get? other := by
  apply Option.ext
  intro found
  rw [get?_eq_some_iff, set, mem_setEntries map.distinct]
  by_cases same : other = key
  · simp [same, eq_comm]
  · simp [same, get?_eq_some_iff]

@[simp] theorem get?_set_self (map : JsMap κ ν) (key : κ) (value : ν)
    : (map.set key value).get? key = some value := by
  rw [get?_set, if_pos rfl]

theorem get?_delete (map : JsMap κ ν) (key other : κ)
    : (map.delete key).get? other = if other = key then none else map.get? other := by
  apply Option.ext
  intro found
  rw [get?_eq_some_iff, delete, List.mem_filter]
  by_cases same : other = key
  · simp [same]
  · simp [same, get?_eq_some_iff]

theorem get?_filter (map : JsMap κ ν) (keep : κ → ν → Bool) (key : κ)
    : (map.filter keep).get? key = (map.get? key).filter (keep key) := by
  apply Option.ext
  intro found
  rw [get?_eq_some_iff, filter, List.mem_filter, Option.filter_eq_some_iff, get?_eq_some_iff]

theorem keys_set (map : JsMap κ ν) (key : κ) (value : ν)
    : (map.set key value).keys = if key ∈ map.keys then map.keys else map.keys ++ [key] :=
  setEntries_keys key value map.entries

theorem size_set (map : JsMap κ ν) (key : κ) (value : ν)
    : (map.set key value).size = if map.has key = true then map.size else map.size + 1 := by
  have size (map : JsMap κ ν) : map.size = map.keys.length := by simp [JsMap.size, keys]
  rw [size, keys_set, size]
  by_cases held : key ∈ map.keys
  · rw [if_pos held, if_pos (has_iff.mpr held)]
  · rw [if_neg held, if_neg fun has => held (has_iff.mp has), List.length_append]
    rfl

theorem size_delete_le (map : JsMap κ ν) (key : κ) : (map.delete key).size ≤ map.size :=
  List.length_filter_le ..

def weigh (weight : κ → ν → Int) (map : JsMap κ ν) : Int :=
  (map.entries.map fun entry => weight entry.1 entry.2).sum

/-- Binding a key adds what the entry weighs, less what the old one did, by induction over the
entries.
-/
theorem weigh_setEntries (weight : κ → ν → Int) (key : κ) (value : ν)
    (distinct : (entries.map Prod.fst).Nodup)
    : ((setEntries key value entries).map fun entry => weight entry.1 entry.2).sum
      = (entries.map fun entry => weight entry.1 entry.2).sum + weight key value
        - ((entries.find? fun entry => entry.1 = key).map fun entry => weight key entry.2).getD 0
    := by
  induction entries with
  | nil => simp [setEntries]
  | cons entry rest ih =>
      simp only [List.map_cons, List.nodup_cons] at distinct
      by_cases same : entry.1 = key
      · simp only [setEntries, if_pos same, List.map_cons, List.sum_cons, List.find?_cons,
          decide_eq_true same, Option.map_some, Option.getD_some]
        rw [same]
        omega
      · simp only [setEntries, if_neg same, List.map_cons, List.sum_cons, List.find?_cons,
          decide_eq_false same]
        rw [ih distinct.2]
        omega

theorem weigh_set (weight : κ → ν → Int) (map : JsMap κ ν) (key : κ) (value : ν)
    : (map.set key value).weigh weight
      = map.weigh weight + weight key value - ((map.get? key).map (weight key)).getD 0 := by
  have step := weigh_setEntries weight key value map.distinct
  unfold weigh get?
  rw [Option.map_map]
  exact step

theorem weigh_filter_ne (weight : κ → ν → Int) (key : κ) (distinct : (entries.map Prod.fst).Nodup)
    : ((entries.filter fun entry => ¬entry.1 = key).map fun entry => weight entry.1 entry.2).sum
      = (entries.map fun entry => weight entry.1 entry.2).sum
        - ((entries.find? fun entry => entry.1 = key).map fun entry => weight key entry.2).getD 0
    := by
  induction entries with
  | nil => simp
  | cons entry rest ih =>
      simp only [List.map_cons, List.nodup_cons] at distinct
      by_cases same : entry.1 = key
      · have others : (rest.filter fun other => ¬other.1 = key) = rest := by
          refine List.filter_eq_self.mpr fun other member => ?_
          have apart : other.1 ≠ key := fun equal =>
            distinct.1 (List.mem_map.mpr ⟨other, member, equal.trans same.symm⟩)
          simpa using apart
        rw [List.filter_cons_of_neg (by simpa using same), List.find?_cons_of_pos (by simpa using same),
          others, List.map_cons, List.sum_cons, same]
        simp
      · rw [List.filter_cons_of_pos (by simpa using same), List.find?_cons_of_neg (by simpa using same),
          List.map_cons, List.map_cons, List.sum_cons, List.sum_cons, ih distinct.2]
        omega

theorem weigh_delete (weight : κ → ν → Int) (map : JsMap κ ν) (key : κ)
    : (map.delete key).weigh weight
      = map.weigh weight - ((map.get? key).map (weight key)).getD 0 := by
  have step := weigh_filter_ne weight key map.distinct
  unfold weigh get?
  rw [Option.map_map]
  exact step

theorem setEntries_absent (absent : key ∉ entries.map Prod.fst)
    : setEntries key value entries = entries ++ [(key, value)] := by
  induction entries with
  | nil => rfl
  | cons entry rest ih =>
      simp only [List.map_cons, List.mem_cons, not_or] at absent
      have other : ¬entry.1 = key := fun same => absent.1 same.symm
      simp only [setEntries, if_neg other, ih absent.2, List.cons_append]

omit [DecidableEq κ] in
theorem values_filter (map : JsMap κ ν) (keep : ν → Bool)
    : (map.filter fun _ value => keep value).values = map.values.filter keep := by
  simp [values, filter, List.filter_map, Function.comp_def]

def bindAll {ι : Type*} (key : ι → κ) (value : ι → ν) (map : JsMap κ ν) (items : List ι)
    : JsMap κ ν :=
  items.foldl (fun result item => result.set (key item) (value item)) map

/-- Every entry was there before or is that of an item, by induction over the items. -/
theorem mem_bindAll {ι : Type*} {key : ι → κ} {value : ι → ν} {items : List ι} {entry : κ × ν}
    (member : entry ∈ (bindAll key value map items).entries)
    : entry ∈ map.entries ∨ ∃ item ∈ items, entry = (key item, value item) := by
  induction items generalizing map with
  | nil => exact Or.inl member
  | cons item rest ih =>
      rcases ih member with before | ⟨other, inside, same⟩
      · rcases (mem_setEntries map.distinct).mp before with same | ⟨old, _⟩
        · exact Or.inr ⟨item, List.mem_cons_self, same⟩
        · exact Or.inl old
      · exact Or.inr ⟨other, List.mem_cons_of_mem _ inside, same⟩

/-- Items with distinct new keys become the last entries, by induction over them. -/
theorem entries_bindAll {ι : Type*} {key : ι → κ} {value : ι → ν} {items : List ι}
    (distinct : (items.map key).Nodup) (fresh : ∀ item ∈ items, key item ∉ map.keys)
    : (bindAll key value map items).entries
      = map.entries ++ items.map fun item => (key item, value item) := by
  induction items generalizing map with
  | nil => simp [bindAll]
  | cons item rest ih =>
      simp only [List.map_cons, List.nodup_cons] at distinct
      have absent := fresh item (List.mem_cons_self ..)
      have first : (map.set (key item) (value item)).entries
          = map.entries ++ [(key item, value item)] :=
        setEntries_absent absent
      have others : ∀ other ∈ rest, key other ∉ (map.set (key item) (value item)).keys := by
        intro other member inside
        rw [keys_set, if_neg absent, List.mem_append, List.mem_singleton] at inside
        rcases inside with old | same
        · exact fresh other (List.mem_cons_of_mem _ member) old
        · exact distinct.1 (List.mem_map.mpr ⟨other, member, same⟩)
      have step := ih distinct.2 others
      rw [first, List.append_assoc] at step
      exact step

/-- A key is bound to the last item that has it, by induction over the items. -/
theorem get?_bindAll {ι : Type*} {key : ι → κ} {value : ι → ν} {items : List ι} (wanted : κ)
    : (bindAll key value map items).get? wanted
      = match items.reverse.find? (fun item => key item = wanted) with
        | some item => some (value item)
        | none => map.get? wanted := by
  induction items generalizing map with
  | nil => rfl
  | cons item rest ih =>
      have step := @ih (map.set (key item) (value item))
      rw [List.reverse_cons, List.find?_append]
      rw [show bindAll key value map (item :: rest)
        = bindAll key value (map.set (key item) (value item)) rest from rfl, step]
      cases found : rest.reverse.find? (fun item => key item = wanted) with
      | some last => simp
      | none =>
          by_cases same : key item = wanted
          · simp [same]
          · have other : ¬wanted = key item := fun h => same h.symm
            simp [same, get?_set, other]

end JsMap

end PiFabric
