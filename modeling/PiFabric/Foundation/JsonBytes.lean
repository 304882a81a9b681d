import PiFabric.Foundation.JsonObject

/-! The bytes of an object are those of its members, each encoded alone and set apart by commas:
a writer may keep the bytes of a member and put them together with others later.
-/

namespace PiFabric

open JsString

namespace Utf8

/-- No pair spans the end of a well-formed string, by induction along its code points. -/
theorem encode_append {text : JsString} (h : WellFormed text) (more : JsString)
    : encode (text ++ more) = encode text ++ encode more := by
  induction text using encode.induct with
  | case1 => rfl
  | case2 unit =>
      cases more with
      | nil => simp [encode]
      | cons next rest => simp [encode, h.1]
  | case3 first second rest pair ih =>
      have halves := pair
      simp only [Bool.and_eq_true] at halves
      simp only [WellFormed, halves.1, if_true] at h
      simp only [List.cons_append, encode, pair, if_true, ih h.2, List.append_assoc]
  | case4 first second rest single ih =>
      have high : isHigh first = false := by
        cases leads : isHigh first with
        | false => rfl
        | true => simp_all [WellFormed]
      simp only [WellFormed, high] at h
      have apart := ih h.2
      simp only [List.cons_append] at apart ⊢
      simp only [encode, single, Bool.false_eq_true, if_false, apart, List.append_assoc]

/-- Latin-1 reads back what UTF-8 writes for ASCII text, by induction over the units. -/
theorem map_encode_of_ascii {text : JsString} (h : ∀ unit ∈ text, unit.toNat < 0x80)
    : (encode text).map UInt8.toUInt16 = text := by
  induction text with
  | nil => rfl
  | cons unit rest ih =>
      have small := h unit List.mem_cons_self
      have alone : WellFormed [unit] := by
        refine wellFormed_of_ascii fun other member => ?_
        rw [List.mem_singleton.mp member]
        exact UInt16.lt_iff_toNat_lt.mpr small
      have single : (encode [unit]).map UInt8.toUInt16 = [unit] := by
        have bytes : encode [unit] = [unit.toNat.toUInt8] := by
          simp [encode, encodeUnit, alone.1, alone.2, encodePoint, small]
        have same : unit.toNat.toUInt8.toUInt16 = unit := by
          refine UInt16.toNat_inj.mp ?_
          rw [UInt8.toNat_toUInt16, toNat_toUInt8 (by omega)]
        rw [bytes, List.map_singleton, same]
      have split : unit :: rest = [unit] ++ rest := rfl
      rw [split, encode_append alone, List.map_append, single,
        ih fun other member => h other (List.mem_cons_of_mem _ member)]

end Utf8

namespace Json

def isPlain (unit : UInt16) : Bool :=
  isVisible unit && unit != unitOf '"' && unit != unitOf '\\'

theorem escapeUnit_of_plain {unit : UInt16} (h : isPlain unit = true)
    : escapeUnit unit = [unit] := by
  simp only [isPlain, isVisible, Bool.and_eq_true, decide_eq_true_eq, bne_iff_ne] at h
  obtain ⟨⟨⟨low, high⟩, quoteFree⟩, slashFree⟩ := h
  have apart {other : UInt16} (control : other.toNat < 0x20) : (unit == other) = false := by
    refine beq_eq_false_iff_ne.mpr ?_
    rintro rfl
    omega
  have short : shortEscapes.lookup unit = none := by
    simp [shortEscapes, List.lookup, beq_eq_false_iff_ne.mpr quoteFree,
      beq_eq_false_iff_ne.mpr slashFree, @apart 0x08 (by decide), @apart 0x0C (by decide),
      @apart 0x0A (by decide), @apart 0x0D (by decide), @apart 0x09 (by decide)]
  have ascii : WellFormed [unit] := by
    refine wellFormed_of_ascii fun other member => ?_
    rw [List.mem_singleton.mp member]
    exact UInt16.lt_iff_toNat_lt.mpr high
  have visible : ¬unit < 0x20 := by
    rw [UInt16.lt_iff_toNat_lt]
    exact Nat.not_lt.mpr low
  simp [escapeUnit, short, visible, ascii.1, ascii.2]

/-- Plain text is its own content, by induction along its code points. -/
theorem escape_of_plain {text : JsString} (h : ∀ unit ∈ text, isPlain unit = true)
    : escape text = text := by
  induction text using escape.induct with
  | case1 => rfl
  | case2 unit => exact escapeUnit_of_plain (h unit List.mem_cons_self)
  | case3 first second rest pair ih =>
      have plain := h first List.mem_cons_self
      simp only [isPlain, isVisible, Bool.and_eq_true, decide_eq_true_eq] at plain
      have surrogate := Utf8.isHigh_iff.mp (Bool.and_eq_true_iff.mp pair).1
      omega
  | case4 first second rest single ih =>
      simp only [escape, single, Bool.false_eq_true, if_false]
      rw [escapeUnit_of_plain (h first List.mem_cons_self),
        ih fun unit member => h unit (List.mem_cons_of_mem _ member)]
      rfl

theorem quote_of_plain {text : JsString} (h : ∀ unit ∈ text, isPlain unit = true)
    : quote text = unitOf '"' :: text ++ [unitOf '"'] := by
  rw [quote, escape_of_plain h]

/-- The bytes of one member: its name, a colon and its value. -/
def memberBytes (member : JsString × Json) : List UInt8 :=
  Utf8.encode (quote member.1 ++ unitOf ':' :: stringify member.2)

def commaJoined (pieces : List (List UInt8)) : List UInt8 :=
  [UInt8.ofNat 0x2C].intercalate pieces

def braced (pieces : List (List UInt8)) : List UInt8 :=
  UInt8.ofNat 0x7B :: commaJoined pieces ++ [UInt8.ofNat 0x7D]

theorem commaJoined_cons (piece : List UInt8) (pieces : List (List UInt8))
    : commaJoined (piece :: pieces)
      = piece ++ pieces.flatMap (UInt8.ofNat 0x2C :: ·) := by
  induction pieces generalizing piece with
  | nil => simp [commaJoined]
  | cons next rest ih =>
      have step : commaJoined (piece :: next :: rest)
          = piece ++ UInt8.ofNat 0x2C :: commaJoined (next :: rest) := by
        simp [commaJoined, List.intercalate]
      rw [step, ih, List.flatMap_cons, List.cons_append]

/-- The members after the first, by induction over them. -/
theorem encode_stringifyMembers (members : List (JsString × Json))
    : Utf8.encode (stringifyMembers members)
      = (members.map memberBytes).flatMap (UInt8.ofNat 0x2C :: ·) ++ [UInt8.ofNat 0x7D] := by
  induction members with
  | nil => rfl
  | cons member rest ih =>
      have comma : WellFormed [unitOf ','] := (printable_of_ascii (by decide)).wellFormed
      have body := (printable_member member).wellFormed
      calc Utf8.encode (stringifyMembers (member :: rest))
          = Utf8.encode ([unitOf ','] ++ ((quote member.1 ++ unitOf ':' :: stringify member.2)
              ++ stringifyMembers rest)) := by
            simp [stringifyMembers]
        _ = [UInt8.ofNat 0x2C] ++ (memberBytes member ++ Utf8.encode (stringifyMembers rest)) := by
            rw [Utf8.encode_append comma, Utf8.encode_append body]
            rfl
        _ = _ := by
            rw [ih]
            simp

/-- The bytes of an object, member by member. -/
theorem bytes_object (members : List (JsString × Json))
    : bytes (.object members) = braced (members.map memberBytes) := by
  cases members with
  | nil => rfl
  | cons member rest =>
      have brace : WellFormed [unitOf '\x7b'] := (printable_of_ascii (by decide)).wellFormed
      have body := (printable_member member).wellFormed
      have split : stringify (.object (member :: rest))
          = [unitOf '\x7b'] ++ ((quote member.1 ++ unitOf ':' :: stringify member.2)
            ++ stringifyMembers rest) := by
        simp [stringify]
      rw [bytes, split, Utf8.encode_append brace, Utf8.encode_append body,
        encode_stringifyMembers, braced, List.map_cons, commaJoined_cons]
      simp only [memberBytes, List.append_assoc, List.cons_append]
      rfl

/-- A member whose value is an object, from the pieces of that object. -/
theorem memberBytes_object (name : JsString) (members : List (JsString × Json))
    : memberBytes (name, .object members)
      = Utf8.encode (quote name ++ [unitOf ':']) ++ braced (members.map memberBytes) := by
  have head : WellFormed (quote name ++ [unitOf ':']) :=
    ((printable_quote name).append (printable_of_ascii (by decide))).wellFormed
  have split : quote name ++ unitOf ':' :: stringify (.object members)
      = (quote name ++ [unitOf ':']) ++ stringify (.object members) := by
    simp
  rw [memberBytes, split, Utf8.encode_append head, ← bytes_object]
  rfl

/-- The value of a member lies after its name and the colon. -/
theorem drop_memberBytes (member : JsString × Json)
    : (memberBytes member).drop ((Utf8.encode (quote member.1)).length + 1)
      = bytes member.2 := by
  have name := (printable_quote member.1).wellFormed
  have colon : WellFormed [unitOf ':'] := (printable_of_ascii (by decide)).wellFormed
  have split : memberBytes member
      = (Utf8.encode (quote member.1) ++ [UInt8.ofNat 0x3A]) ++ bytes member.2 := by
    have parts : unitOf ':' :: stringify member.2 = [unitOf ':'] ++ stringify member.2 := rfl
    rw [memberBytes, Utf8.encode_append name, parts, Utf8.encode_append colon, List.append_assoc]
    rfl
  rw [split, List.drop_left' (by rw [List.length_append]; rfl)]

end Json

end PiFabric
