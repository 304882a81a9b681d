import PiFabric.Foundation.JsonRoundTrip

/-! Objects as lists of properties: reading a property, setting one in its place, and the
spread `{ ...object, ...changes }`.
-/

namespace PiFabric.Json

open JsString

abbrev Members := List (JsString × Json)

namespace Members

/-- `object[name]`. -/
def get? (name : String) (members : Members) : Option Json :=
  field? name (.object members)

/-- `object[name] = value`: a property that is present keeps its place. -/
def set (name : String) (value : Json) (members : Members) : Members :=
  if members.any (·.1 = lit name) then
    members.map fun member => if member.1 = lit name then (member.1, value) else member
  else members ++ [(lit name, value)]

/-- `{ ...object, ...changes }`. -/
def assign (members : Members) (changes : List (String × Json)) : Members :=
  changes.foldl (fun result change => result.set change.1 change.2) members

theorem get?_append_singleton (name : String) (members : Members) (key : JsString)
    (value : Json)
    : get? name (members ++ [(key, value)])
      = if key = lit name then some value else get? name members := by
  by_cases same : key = lit name <;> simp [get?, field?, same]

variable {name : String} {value : Json} {members : Members}

/-- Reading after setting, by whether the property was present. -/
theorem get?_set {key : String}
    : get? name (members.set key value)
      = if lit name = lit key then some value else get? name members := by
  unfold set
  split
  · next present =>
      simp only [get?, field?, ← List.map_reverse, List.find?_map, Option.map_map]
      have keep (member : JsString × Json)
          : (if member.1 = lit key then (member.1, value) else member).1 = member.1 := by
        split <;> rfl
      simp only [Function.comp_def, keep]
      by_cases same : lit name = lit key
      · obtain ⟨member, inside, equal⟩ := List.any_eq_true.mp present
        have found : (members.reverse.find? fun m => m.1 == lit name) ≠ none := by
          rw [Ne, List.find?_eq_none]
          intro absent
          exact absent member (List.mem_reverse.mpr inside) (by simpa [same] using equal)
        obtain ⟨hit, at_⟩ := Option.ne_none_iff_exists'.mp found
        have named : hit.1 = lit name := by simpa using List.find?_some at_
        rw [at_, if_pos same, Option.map_some, if_pos (named.trans same)]
      · cases found : members.reverse.find? fun m => m.1 == lit name with
        | none => simp [same]
        | some hit =>
            have named : hit.1 = lit name := by simpa using List.find?_some found
            simp [same, named]
  · next absent =>
      rw [get?_append_singleton]
      by_cases same : lit name = lit key
      · simp [same]
      · have other : ¬lit key = lit name := fun h => same h.symm
        simp [same, other]

theorem get?_set_self
    : get? name (members.set name value) = some value := by
  rw [get?_set, if_pos rfl]

theorem get?_set_other {key : String} (other : lit name ≠ lit key)
    : get? name (members.set key value) = get? name members := by
  rw [get?_set, if_neg other]

/-- A property that no change names is left as it is, by induction over the changes. -/
theorem get?_assign_other {changes : List (String × Json)}
    (other : changes.all (fun change => lit name ≠ lit change.1) = true)
    : get? name (members.assign changes) = get? name members := by
  induction changes generalizing members with
  | nil => rfl
  | cons change rest ih =>
      simp only [List.all_cons, Bool.and_eq_true, decide_eq_true_eq] at other
      exact (ih other.2).trans (get?_set_other other.1)

/-- The last change of a property stands, where those after it name others. -/
theorem get?_assign_last {before after : List (String × Json)}
    (other : after.all (fun change => lit name ≠ lit change.1) = true)
    : get? name (members.assign (before ++ (name, value) :: after)) = some value := by
  have split
      : members.assign (before ++ (name, value) :: after)
        = ((members.assign before).set name value).assign after := by
    simp [assign]
  rw [split, get?_assign_other other, get?_set_self]

end Members

/-- Strict equality of two property values; two objects are never the same one. -/
def strictEqual : Option Json → Option Json → Bool
  | none, none => true
  | some null, some null => true
  | some (bool a), some (bool b) => a = b
  | some (number a), some (number b) => a = b
  | some (string a), some (string b) => a = b
  | _, _ => false

theorem eq_of_strictEqual {left right : Option Json} (h : strictEqual left right = true)
    : left = right := by
  unfold strictEqual at h
  split at h <;> simp_all

def text? : Option Json → Option JsString
  | some (string text) => some text
  | _ => none

end PiFabric.Json
