import PiFabric.Foundation.JsonBytes
import PiFabric.Foundation.Literals

/-! How many bytes texts take: as they are, in a string literal, and as members of an object. -/

namespace PiFabric

open JsString

namespace Utf8

/-- `Buffer.byteLength(text, "utf8")`. -/
def byteLength (text : JsString) : Nat :=
  (encode text).length

theorem one_le_encodeUnit (unit : UInt16) : 1 ≤ (encodeUnit unit).length := by
  unfold encodeUnit
  split
  · exact encodePoint_length_pos _
  · exact encodePoint_length_pos _

theorem encodeUnit_length_le (unit : UInt16) : (encodeUnit unit).length ≤ 3 := by
  have below (point : Nat) (small : point < 0x10000) : (encodePoint point).length ≤ 3 := by
    unfold encodePoint
    split
    · simp
    split
    · simp
    simp
  unfold encodeUnit
  split
  · exact below _ (by decide)
  · exact below _ unit.toNat_lt

/-- A surrogate pair takes four bytes. -/
theorem length_encode_pair {first second : UInt16} (high : isHigh first = true)
    (low : isLow second = true)
    : (encodePoint (pairPoint first second)).length = 4 := by
  have above := isHigh_iff.mp high
  have below := isLow_iff.mp low
  have astral : 0x10000 ≤ pairPoint first second := by
    unfold pairPoint
    omega
  rw [encodePoint, if_neg (by omega), if_neg (by omega), if_neg (by omega)]
  rfl

/-- A text takes at least one byte for each of its units, by induction along its pairs. -/
theorem length_le_byteLength (text : JsString) : text.length ≤ byteLength text := by
  unfold byteLength
  induction text using encode.induct with
  | case1 => exact Nat.le_refl 0
  | case2 unit => exact one_le_encodeUnit unit
  | case3 first second rest pair ih =>
    have halves := pair
    simp only [Bool.and_eq_true] at halves
    have wide := length_encode_pair halves.1 halves.2
    simp only [encode, pair, if_true, List.length_append, List.length_cons, wide]
    omega
  | case4 first second rest single ih =>
    have one := one_le_encodeUnit first
    simp only [encode, single, Bool.false_eq_true, if_false, List.length_append]
    rw [List.length_cons]
    omega

/-- More units never take fewer bytes, also where they complete a surrogate pair; by induction along
the pairs.
-/
theorem byteLength_le_append (text more : JsString)
    : byteLength text ≤ byteLength (text ++ more) := by
  unfold byteLength
  induction text using encode.induct with
  | case1 => exact Nat.zero_le _
  | case2 unit =>
    cases more with
    | nil => exact Nat.le_refl _
    | cons second rest =>
      rw [List.singleton_append, encode, encode]
      split
      · rename_i pair
        rw [List.length_append]
        have halves := pair
        simp only [Bool.and_eq_true] at halves
        rw [length_encode_pair halves.1 halves.2]
        have three := encodeUnit_length_le unit
        omega
      · rw [List.length_append]
        exact Nat.le_add_right _ _
  | case3 first second rest pair ih =>
    simp only [List.cons_append, encode, pair, if_true, List.length_append] at ih ⊢
    omega
  | case4 first second rest single ih =>
    simp only [List.cons_append, encode, single, Bool.false_eq_true, if_false,
      List.length_append] at ih ⊢
    omega

theorem byteLength_append {text : JsString} (formed : WellFormed text) (more : JsString)
    : byteLength (text ++ more) = byteLength text + byteLength more := by
  rw [byteLength, encode_append formed, List.length_append]
  rfl

end Utf8

namespace Json

def literalLength (text : JsString) : Nat :=
  Utf8.byteLength (escape text)

/-- A literal has two quotes around its content. -/
theorem byteLength_quote (text : JsString)
    : Utf8.byteLength (quote text) = literalLength text + 2 := by
  have mark : WellFormed [unitOf '"'] := (printable_of_ascii (by decide)).wellFormed
  have parts : quote text = [unitOf '"'] ++ (escape text ++ [unitOf '"']) := rfl
  rw [parts, Utf8.byteLength_append mark,
    Utf8.byteLength_append (printable_escape text).wellFormed]
  have one : Utf8.byteLength [unitOf '"'] = 1 := rfl
  rw [one, literalLength]
  omega

/-- `Buffer.byteLength(JSON.stringify(value), "utf8")`. -/
def serializedBytes (value : Json) : Nat :=
  Utf8.byteLength (stringify value)

/-- The bytes of a member, with its colon. -/
theorem length_memberBytes (member : JsString × Json)
    : (memberBytes member).length
      = literalLength member.1 + 3 + serializedBytes member.2 := by
  have colon : WellFormed [unitOf ':'] := (printable_of_ascii (by decide)).wellFormed
  have parts : memberBytes member
      = Utf8.encode (quote member.1 ++ ([unitOf ':'] ++ stringify member.2)) := rfl
  rw [parts, Utf8.encode_append (printable_quote member.1).wellFormed, Utf8.encode_append colon,
    List.length_append, List.length_append]
  have name := byteLength_quote member.1
  unfold Utf8.byteLength at name
  rw [name, serializedBytes, Utf8.byteLength]
  have one : (Utf8.encode [unitOf ':']).length = 1 := rfl
  omega

/-- What a member adds to an object, with a comma. -/
def memberCost (member : JsString × Json) : Nat :=
  literalLength member.1 + 4 + serializedBytes member.2

/-- An object is as long as its members, less the comma that the first one does not need. -/
theorem serializedBytes_object {members : List (JsString × Json)} (some_ : members ≠ [])
    : serializedBytes (.object members) = 1 + (members.map memberCost).sum := by
  cases members with
  | nil => exact absurd rfl some_
  | cons member rest =>
    have first : (memberBytes member).length + 1 = memberCost member := by
      rw [length_memberBytes, memberCost]
      omega
    have others : ((rest.map memberBytes).flatMap (UInt8.ofNat 0x2C :: ·)).length
        = (rest.map memberCost).sum := by
      rw [List.length_flatMap, List.map_map]
      refine congrArg List.sum (List.map_congr_left fun other _ => ?_)
      rw [Function.comp_apply, List.length_cons, length_memberBytes, memberCost]
      omega
    have whole : serializedBytes (.object (member :: rest))
        = (bytes (.object (member :: rest))).length := rfl
    rw [whole, bytes_object, braced, List.map_cons, commaJoined_cons, List.map_cons,
      List.sum_cons]
    simp only [List.length_append, List.length_cons, List.length_nil, others]
    omega

/-- What a property adds to an object literal: nothing where it is undefined. -/
def propertyCost (property : String × Option Json) : Nat :=
  match property.2 with
  | none => 0
  | some value => memberCost (lit property.1, value)

/-- The members of an object literal cost what its properties do, by induction over them. -/
theorem sum_memberCost (properties : List (String × Option Json))
    : ((properties.filterMap fun property =>
          property.2.map fun value => (lit property.1, value)).map memberCost).sum
      = (properties.map propertyCost).sum := by
  induction properties with
  | nil => rfl
  | cons property rest ih =>
    rw [List.map_cons, List.sum_cons, ← ih, List.filterMap_cons, propertyCost]
    cases property.2 with
    | none => exact (Nat.zero_add _).symm
    | some value => rfl

theorem serializedBytes_literal {properties : List (String × Option Json)}
    (some_ : ∃ property ∈ properties, property.2.isSome = true)
    : serializedBytes (literal properties) = 1 + (properties.map propertyCost).sum := by
  have present : (properties.filterMap fun property =>
      property.2.map fun value => (lit property.1, value)) ≠ [] := by
    obtain ⟨property, member, held⟩ := some_
    obtain ⟨value, known⟩ := Option.isSome_iff_exists.mp held
    intro none_left
    have missing := List.filterMap_eq_nil_iff.mp none_left property member
    rw [known] at missing
    cases missing
  rw [literal, serializedBytes_object present, sum_memberCost]

/-- An array is as long as its items with a comma each, less the comma that the first one does not need,
by induction over the items.
-/
theorem serializedBytes_array {items : List Json} (some_ : items ≠ [])
    : serializedBytes (.array items)
      = 1 + (items.map fun item => serializedBytes item + 1).sum := by
  have tail (first : Char) (single : WellFormed [unitOf first])
      (one : Utf8.byteLength [unitOf first] = 1) (item : Json) (rest : List Json)
      : Utf8.byteLength (unitOf first :: stringify item ++ stringifyItems rest)
        = 1 + serializedBytes item + Utf8.byteLength (stringifyItems rest) := by
    rw [List.cons_append, ← List.singleton_append, Utf8.byteLength_append single,
      Utf8.byteLength_append (printable_stringify item).wellFormed, one, serializedBytes]
    omega
  have items_ (rest : List Json) : Utf8.byteLength (stringifyItems rest)
      = 1 + (rest.map fun item => serializedBytes item + 1).sum := by
    induction rest with
    | nil => rfl
    | cons item rest ih =>
        rw [List.map_cons, List.sum_cons]
        have step := tail ',' (printable_of_ascii (by decide)).wellFormed (by decide) item rest
        rw [ih] at step
        exact step.trans (by omega)
  cases items with
  | nil => exact absurd rfl some_
  | cons item rest =>
      have step := tail '[' (printable_of_ascii (by decide)).wellFormed (by decide) item rest
      rw [items_] at step
      rw [List.map_cons, List.sum_cons]
      exact step.trans (by omega)

end Json

end PiFabric
