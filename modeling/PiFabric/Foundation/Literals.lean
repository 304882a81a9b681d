import PiFabric.Foundation.JsonObject
import PiFabric.Foundation.ObjectKeys

/-! Object literals over a fixed set of property names: properties that are set only where there is
a value, and the spread `{ ...map, ...items }`.
-/

namespace PiFabric

namespace JsMap

variable {κ ν : Type} [DecidableEq κ]

/-- `{ ...map, ...(value !== undefined ? { [key]: value } : {}) }`. -/
def setSome (map : JsMap κ ν) (key : κ) : Option ν → JsMap κ ν
  | none => map
  | some value => map.set key value

/-- A literal whose properties may be undefined. -/
def literal (properties : List (κ × Option ν)) : JsMap κ ν :=
  properties.foldl (fun map property => map.setSome property.1 property.2) empty

/-- `{ ...map, ...items }`. -/
def spread (map items : JsMap κ ν) : JsMap κ ν :=
  bindAll Prod.fst Prod.snd map items.entries

/-- The keys after binding items are the old ones and theirs, by induction over the items. -/
theorem has_bindAll {ι : Type} {key : ι → κ} {value : ι → ν} {map : JsMap κ ν} {items : List ι}
    {wanted : κ}
    : (bindAll key value map items).has wanted = true
      ↔ map.has wanted = true ∨ wanted ∈ items.map key := by
  induction items generalizing map with
  | nil => simp [bindAll]
  | cons item rest ih =>
      have step : bindAll key value map (item :: rest)
          = bindAll key value (map.set (key item) (value item)) rest := rfl
      rw [step, ih, has_iff, keys_set, has_iff, List.map_cons, List.mem_cons]
      split
      · next present =>
          constructor
          · intro held
            exact held.imp_right .inr
          · intro held
            rcases held with old | same | later
            · exact .inl old
            · exact .inl (same ▸ present)
            · exact .inr later
      · rw [List.mem_append, List.mem_singleton, or_assoc]

theorem has_delete {map : JsMap κ ν} {key wanted : κ}
    : (map.delete key).has wanted = true ↔ wanted ≠ key ∧ map.has wanted = true := by
  simp only [has_iff, keys, delete, List.mem_map, List.mem_filter, decide_eq_true_eq]
  constructor
  · intro held
    obtain ⟨entry, ⟨member, other⟩, rfl⟩ := held
    exact ⟨other, entry, member, rfl⟩
  · intro held
    obtain ⟨other, entry, member, rfl⟩ := held
    exact ⟨entry, ⟨member, other⟩, rfl⟩

end JsMap

namespace Json

open JsString

/-- An object literal whose properties may be undefined. -/
def literal (properties : List (String × Option Json)) : Json :=
  .object (properties.filterMap fun property =>
    property.2.map fun value => (lit property.1, value))

/-- A property of a literal, where the names are distinct, by induction over the properties. -/
theorem field?_literal {properties : List (String × Option Json)}
    (distinct : (properties.map fun property => lit property.1).Nodup) {name : String}
    {value : Option Json} (member : (name, value) ∈ properties)
    : (literal properties).field? name = value := by
  have absent {others : List (String × Option Json)}
      (fresh : lit name ∉ others.map fun property => lit property.1)
      : ((others.filterMap fun property => property.2.map fun value =>
          (lit property.1, value)).reverse.find? fun member => member.1 == lit name) = none := by
    rw [List.find?_eq_none]
    intro found inside same
    obtain ⟨property, listed, made⟩ := List.mem_filterMap.mp (List.mem_reverse.mp inside)
    obtain ⟨value, _, rfl⟩ := Option.map_eq_some_iff.mp made
    exact fresh (List.mem_map.mpr ⟨property, listed, eq_of_beq same⟩)
  induction properties with
  | nil => cases member
  | cons first rest ih =>
      obtain ⟨fresh, distinct⟩ := List.nodup_cons.mp distinct
      rw [literal, field?, List.filterMap_cons]
      rcases List.mem_cons.mp member with same | later
      · rw [← same] at fresh
        rw [← same]
        cases value with
        | none =>
            dsimp only [Option.map_none]
            rw [absent fresh]
            rfl
        | some value =>
            dsimp only [Option.map_some]
            rw [List.reverse_cons, List.find?_append, absent fresh, Option.none_or]
            simp
      · have found := ih distinct later
        rw [literal, field?] at found
        cases held : first.2 with
        | none => exact found
        | some other =>
            dsimp only [Option.map_some]
            rw [List.reverse_cons, List.find?_append]
            have apart : (lit first.1 == lit name) = false :=
              beq_eq_false_iff_ne.mpr fun same =>
                fresh (List.mem_map.mpr ⟨_, later, same.symm⟩)
            rw [List.find?_cons_of_neg (by rw [apart]; exact Bool.false_ne_true), List.find?_nil,
              Option.or_none]
            exact found

end Json

end PiFabric
