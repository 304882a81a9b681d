import PiFabric.Foundation.Json
import PiFabric.Foundation.Utf8

/-! JavaScript data values, as a caller hands them over: what JSON can carry, and besides
`undefined`, numbers that are not finite and big integers. Functions, symbols and objects with
behaviour of their own are left out.
-/

namespace PiFabric

open JsString

/-- A data value. An object has its own properties in enumeration order. -/
inductive JsValue where
  | undefined
  | null
  | bool (value : Bool)
  | number (value : JsNumber)
  /-- `NaN`, `Infinity` or `-Infinity`. -/
  | nonFinite
  | bigint (value : Int)
  | string (text : JsString)
  | array (items : List JsValue)
  | object (members : List (JsString × JsValue))

namespace JsValue

/-- `object[name]` of an object whose prototype has no such name. -/
def get (members : List (JsString × JsValue)) (name : JsString) : JsValue :=
  (members.lookup name).getD .undefined

def isUndefined : JsValue → Bool
  | undefined => true
  | _ => false

def text? : JsValue → Option JsString
  | string text => some text
  | _ => none

def object? : JsValue → Option (List (JsString × JsValue))
  | object members => some members
  | _ => none

mutual
/-- What `JSON.stringify` writes for a value: nothing for `undefined`, and none where it throws. -/
def toJson : JsValue → Option (Option Json)
  | undefined => some none
  | null => some (some .null)
  | bool value => some (some (.bool value))
  | number value => some (some (.number value))
  | nonFinite => some (some .null)
  | bigint _ => none
  | string text => some (some (.string text))
  | array items => (itemsToJson items).map fun items => some (.array items)
  | object members => (membersToJson members).map fun members => some (.object members)

/-- An item that is not written is `null`. -/
def itemsToJson : List JsValue → Option (List Json)
  | [] => some []
  | item :: rest => do
      let first ← toJson item
      return first.getD .null :: (← itemsToJson rest)

def membersToJson : List (JsString × JsValue) → Option (List (JsString × Json))
  | [] => some []
  | member :: rest => do
      let first ← toJson member.2
      let others ← membersToJson rest
      return match first with
        | some value => (member.1, value) :: others
        | none => others
end

/-- `Buffer.byteLength(JSON.stringify(value))` of an object. -/
def encodedBytes (members : List (JsString × JsValue)) : Option Nat :=
  (membersToJson members).map fun members => (Utf8.encode (Json.object members).stringify).length

/-- A property that an object has and that is not `undefined` is one of its members. -/
theorem mem_of_get {members : List (JsString × JsValue)} {name : JsString}
    (present : (get members name).isUndefined = false)
    : (name, get members name) ∈ members := by
  cases held : members.lookup name with
  | none => simp [get, held, isUndefined] at present
  | some value =>
      have same : get members name = value := by simp [get, held]
      rw [same]
      obtain ⟨before, after, rfl, _⟩ := List.lookup_eq_some_iff.mp held
      simp

theorem object?_eq_some_iff {value : JsValue} {members : List (JsString × JsValue)}
    : value.object? = some members ↔ value = .object members := by
  cases value <;> simp [object?]

theorem text?_eq_some_iff {value : JsValue} {text : JsString}
    : value.text? = some text ↔ value = .string text := by
  cases value <;> simp [text?]

end JsValue

end PiFabric
