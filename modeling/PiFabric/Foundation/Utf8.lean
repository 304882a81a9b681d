import PiFabric.Foundation.JsString

/-! UTF-8 as Node writes and reads it.
Encoding replaces a lone surrogate by U+FFFD; decoding replaces every ill-formed sequence,
up to its longest valid start, by one U+FFFD. Well-formed strings survive the round trip.
-/

namespace PiFabric.Utf8

open JsString

def pairPoint (high low : UInt16) : Nat :=
  0x10000 + (high.toNat - 0xD800) * 0x400 + (low.toNat - 0xDC00)

def encodePoint (point : Nat) : List UInt8 :=
  if point < 0x80 then [point.toUInt8]
  else if point < 0x800 then
    [(0xC0 + point / 0x40).toUInt8, (0x80 + point % 0x40).toUInt8]
  else if point < 0x10000 then
    [(0xE0 + point / 0x1000).toUInt8, (0x80 + point / 0x40 % 0x40).toUInt8,
      (0x80 + point % 0x40).toUInt8]
  else
    [(0xF0 + point / 0x40000).toUInt8, (0x80 + point / 0x1000 % 0x40).toUInt8,
      (0x80 + point / 0x40 % 0x40).toUInt8, (0x80 + point % 0x40).toUInt8]

/-- U+FFFD, which stands for what has no encoding or no decoding. -/
def replacement : UInt16 := 0xFFFD

def encodeUnit (unit : UInt16) : List UInt8 :=
  if isHigh unit || isLow unit then encodePoint replacement.toNat
  else encodePoint unit.toNat

/-- `Buffer.from(text, "utf8")`. -/
def encode : JsString → List UInt8
  | [] => []
  | [unit] => encodeUnit unit
  | first :: second :: rest =>
      if isHigh first && isLow second then
        encodePoint (pairPoint first second) ++ encode rest
      else encodeUnit first ++ encode (second :: rest)

def follows (low high byte : UInt8) : Bool :=
  low ≤ byte && byte ≤ high

def tailBits (byte : UInt8) : Nat :=
  byte.toNat - 0x80

def pairUnits (point : Nat) : JsString :=
  [(0xD800 + (point - 0x10000) / 0x400).toUInt16, (0xDC00 + (point - 0x10000) % 0x400).toUInt16]

def secondOfThree (lead : UInt8) : UInt8 × UInt8 :=
  if lead = 0xE0 then (0xA0, 0xBF) else if lead = 0xED then (0x80, 0x9F) else (0x80, 0xBF)

def secondOfFour (lead : UInt8) : UInt8 × UInt8 :=
  if lead = 0xF0 then (0x90, 0xBF) else if lead = 0xF4 then (0x80, 0x8F) else (0x80, 0xBF)

/-- One step of decoding: the units of the next sequence and the bytes after it.
An ill-formed sequence is consumed up to its longest valid start.
-/
def decodeStep (b0 : UInt8) (t0 : List UInt8) : JsString × List UInt8 :=
  if b0 < 0x80 then ([b0.toUInt16], t0)
  else if follows 0xC2 0xDF b0 then
    match t0 with
    | b1 :: t1 =>
        if follows 0x80 0xBF b1 then
          ([((b0.toNat - 0xC0) * 0x40 + tailBits b1).toUInt16], t1)
        else ([replacement], t0)
    | [] => ([replacement], [])
  else if follows 0xE0 0xEF b0 then
    match t0 with
    | b1 :: b2 :: t2 =>
        if follows (secondOfThree b0).1 (secondOfThree b0).2 b1 then
          if follows 0x80 0xBF b2 then
            ([((b0.toNat - 0xE0) * 0x1000 + tailBits b1 * 0x40 + tailBits b2).toUInt16], t2)
          else ([replacement], b2 :: t2)
        else ([replacement], t0)
    | [b1] =>
        if follows (secondOfThree b0).1 (secondOfThree b0).2 b1 then ([replacement], [])
        else ([replacement], [b1])
    | [] => ([replacement], [])
  else if follows 0xF0 0xF4 b0 then
    match t0 with
    | b1 :: b2 :: b3 :: t3 =>
        if follows (secondOfFour b0).1 (secondOfFour b0).2 b1 then
          if follows 0x80 0xBF b2 then
            if follows 0x80 0xBF b3 then
              (pairUnits ((b0.toNat - 0xF0) * 0x40000 + tailBits b1 * 0x1000
                + tailBits b2 * 0x40 + tailBits b3), t3)
            else ([replacement], b3 :: t3)
          else ([replacement], b2 :: b3 :: t3)
        else ([replacement], t0)
    | [b1, b2] =>
        if follows (secondOfFour b0).1 (secondOfFour b0).2 b1 then
          if follows 0x80 0xBF b2 then ([replacement], []) else ([replacement], [b2])
        else ([replacement], t0)
    | [b1] =>
        if follows (secondOfFour b0).1 (secondOfFour b0).2 b1 then ([replacement], [])
        else ([replacement], [b1])
    | [] => ([replacement], [])
  else ([replacement], t0)

/-- Decoding with a budget of steps; each step consumes at least one byte. -/
def decodeWithin : Nat → List UInt8 → JsString
  | 0, _ => []
  | _ + 1, [] => []
  | fuel + 1, b0 :: t0 => (decodeStep b0 t0).1 ++ decodeWithin fuel (decodeStep b0 t0).2

/-- `bytes.toString("utf8")`. -/
def decode (bytes : List UInt8) : JsString :=
  decodeWithin bytes.length bytes

variable {byte : UInt8}

theorem follows_iff {low high : UInt8}
    : follows low high byte = true ↔ low.toNat ≤ byte.toNat ∧ byte.toNat ≤ high.toNat := by
  simp [follows, UInt8.le_iff_toNat_le]

variable {unit : UInt16}

theorem isHigh_iff
    : isHigh unit = true ↔ 0xD800 ≤ unit.toNat ∧ unit.toNat < 0xDC00 := by
  simp [isHigh, UInt16.le_iff_toNat_le, UInt16.lt_iff_toNat_lt]

theorem isLow_iff
    : isLow unit = true ↔ 0xDC00 ≤ unit.toNat ∧ unit.toNat < 0xE000 := by
  simp [isLow, UInt16.le_iff_toNat_le, UInt16.lt_iff_toNat_lt]

def unitsOf (point : Nat) : JsString :=
  if point < 0x10000 then [point.toUInt16] else pairUnits point

/-- A code point that has an encoding: within Unicode and no surrogate. -/
def Scalar (point : Nat) : Prop :=
  point < 0xD800 ∨ 0xE000 ≤ point ∧ point < 0x110000

theorem not_follows {low high : UInt8} (h : byte.toNat < low.toNat ∨ high.toNat < byte.toNat)
    : follows low high byte = false := by
  rw [Bool.eq_false_iff]
  intro inside
  have bounds := follows_iff.mp inside
  omega

variable {b0 : UInt8}

/-- A leading byte of a longer sequence is not an ASCII byte. -/
theorem not_ascii (h : 0x80 ≤ b0.toNat) : ¬b0 < 0x80 := by
  rw [UInt8.lt_iff_toNat_lt]
  exact Nat.not_lt.mpr h

variable {point : Nat}

/-- The byte of an ASCII code point decodes to its unit. -/
theorem decodeStep_one (small : point < 0x80) (h0 : b0.toNat = point) (more : List UInt8)
    : decodeStep b0 more = (unitsOf point, more) := by
  have ascii : b0 < 0x80 := by
    rw [UInt8.lt_iff_toNat_lt, h0]
    exact small
  have wide : b0.toUInt16 = point.toUInt16 := by
    apply UInt16.toNat_inj.mp
    simp [h0, Nat.mod_eq_of_lt (show point < 65536 by omega)]
  simp only [decodeStep.eq_def, if_pos ascii, wide, unitsOf, if_pos (show point < 0x10000 by omega)]

variable {b1 : UInt8}

/-- Two bytes of a code point below U+0800 decode to its unit. -/
theorem decodeStep_two (low : 0x80 ≤ point) (high : point < 0x800)
    (h0 : b0.toNat = 0xC0 + point / 0x40) (h1 : b1.toNat = 0x80 + point % 0x40) (more : List UInt8)
    : decodeStep b0 (b1 :: more) = (unitsOf point, more) := by
  have big : ¬b0 < 0x80 := not_ascii (by omega)
  have lead : follows 0xC2 0xDF b0 = true := follows_iff.mpr ⟨by simp; omega, by simp; omega⟩
  have tail : follows 0x80 0xBF b1 = true := follows_iff.mpr ⟨by simp; omega, by simp; omega⟩
  have value : (b0.toNat - 0xC0) * 0x40 + tailBits b1 = point := by
    unfold tailBits
    omega
  simp only [decodeStep.eq_def, if_neg big, lead, tail, if_true, value,
    unitsOf, if_pos (show point < 0x10000 by omega)]

/-- Three bytes of a basic-plane scalar decode to its unit. -/
theorem decodeStep_three {b2 : UInt8} (scalar : Scalar point) (low : 0x800 ≤ point)
    (high : point < 0x10000) (h0 : b0.toNat = 0xE0 + point / 0x1000)
    (h1 : b1.toNat = 0x80 + point / 0x40 % 0x40) (h2 : b2.toNat = 0x80 + point % 0x40)
    (more : List UInt8)
    : decodeStep b0 (b1 :: b2 :: more) = (unitsOf point, more) := by
  have big : ¬b0 < 0x80 := not_ascii (by omega)
  have two : follows 0xC2 0xDF b0 = false := not_follows (by simp; omega)
  have lead : follows 0xE0 0xEF b0 = true := follows_iff.mpr ⟨by simp; omega, by simp; omega⟩
  have tail : follows 0x80 0xBF b2 = true := follows_iff.mpr ⟨by simp; omega, by simp; omega⟩
  -- the second byte excludes overlong forms after E0 and surrogates after ED
  have second : follows (secondOfThree b0).1 (secondOfThree b0).2 b1 = true := by
    simp only [secondOfThree, Scalar, follows_iff, ← UInt8.toNat_inj] at scalar ⊢
    split
    · next is => simp at is ⊢; omega
    · split
      · next is => simp at is ⊢; omega
      · simp; omega
  have value
      : (b0.toNat - 0xE0) * 0x1000 + tailBits b1 * 0x40 + tailBits b2 = point := by
    unfold tailBits
    omega
  simp only [decodeStep.eq_def, if_neg big, two, lead, second, tail, if_true,
    value, unitsOf, if_pos high, Bool.false_eq_true, if_false]

/-- Four bytes of a scalar above the basic plane decode to its surrogate pair. -/
theorem decodeStep_four {b2 b3 : UInt8} (low : 0x10000 ≤ point) (high : point < 0x110000)
    (h0 : b0.toNat = 0xF0 + point / 0x40000) (h1 : b1.toNat = 0x80 + point / 0x1000 % 0x40)
    (h2 : b2.toNat = 0x80 + point / 0x40 % 0x40) (h3 : b3.toNat = 0x80 + point % 0x40)
    (more : List UInt8)
    : decodeStep b0 (b1 :: b2 :: b3 :: more) = (unitsOf point, more) := by
  have big : ¬b0 < 0x80 := not_ascii (by omega)
  have two : follows 0xC2 0xDF b0 = false := not_follows (by simp; omega)
  have three : follows 0xE0 0xEF b0 = false := not_follows (by simp; omega)
  have lead : follows 0xF0 0xF4 b0 = true := follows_iff.mpr ⟨by simp; omega, by simp; omega⟩
  have third : follows 0x80 0xBF b2 = true := follows_iff.mpr ⟨by simp; omega, by simp; omega⟩
  have tail : follows 0x80 0xBF b3 = true := follows_iff.mpr ⟨by simp; omega, by simp; omega⟩
  have second : follows (secondOfFour b0).1 (secondOfFour b0).2 b1 = true := by
    simp only [secondOfFour, follows_iff, ← UInt8.toNat_inj]
    split
    · next is => simp at is ⊢; omega
    · split
      · next is => simp at is ⊢; omega
      · simp; omega
  have value
      : (b0.toNat - 0xF0) * 0x40000 + tailBits b1 * 0x1000 + tailBits b2 * 0x40 + tailBits b3
        = point := by
    unfold tailBits
    omega
  simp only [decodeStep.eq_def, if_neg big, two, three, lead, second, third, tail,
    if_true, value, unitsOf, if_neg (Nat.not_lt.mpr low), Bool.false_eq_true, if_false]

theorem toNat_toUInt8 {n : Nat} (h : n < 256) : n.toUInt8.toNat = n := by
  simp [Nat.mod_eq_of_lt h]

/-- Reading an encoded code point gives its units and the bytes after it, by the four
lengths of an encoding.
-/
theorem decodeStep_encodePoint (scalar : Scalar point) (more : List UInt8)
    : ∃ b0 t0,
        encodePoint point ++ more = b0 :: t0
        ∧ decodeStep b0 t0 = (unitsOf point, more) := by
  unfold encodePoint
  split
  · next small => exact ⟨_, _, rfl, decodeStep_one small (toNat_toUInt8 (by omega)) more⟩
  split
  · next low high =>
      exact ⟨_, _, rfl, decodeStep_two (Nat.not_lt.mp low) high (toNat_toUInt8 (by omega))
        (toNat_toUInt8 (by omega)) more⟩
  split
  · next low high =>
      exact ⟨_, _, rfl, decodeStep_three scalar (Nat.not_lt.mp low) high
        (toNat_toUInt8 (by omega)) (toNat_toUInt8 (by omega)) (toNat_toUInt8 (by omega)) more⟩
  · next low =>
      have bound : point < 0x110000 := by
        unfold Scalar at scalar
        omega
      exact ⟨_, _, rfl, decodeStep_four (Nat.not_lt.mp low) bound (toNat_toUInt8 (by omega))
        (toNat_toUInt8 (by omega)) (toNat_toUInt8 (by omega)) (toNat_toUInt8 (by omega)) more⟩

theorem decodeWithin_encodePoint (scalar : Scalar point) (fuel : Nat) (more : List UInt8)
    : decodeWithin (fuel + 1) (encodePoint point ++ more)
      = unitsOf point ++ decodeWithin fuel more := by
  obtain ⟨b0, t0, bytes, step⟩ := decodeStep_encodePoint scalar more
  simp only [bytes, decodeWithin, step]

theorem encodePoint_length_pos (point : Nat) : 0 < (encodePoint point).length := by
  unfold encodePoint
  split
  · simp
  split
  · simp
  split <;> simp

/-- A unit outside the surrogate range is a scalar that stands for itself. -/
theorem scalar_of_unit (high : isHigh unit = false) (low : isLow unit = false)
    : Scalar unit.toNat ∧ unitsOf unit.toNat = [unit] := by
  have bound := unit.toNat_lt
  have notHigh : ¬(0xD800 ≤ unit.toNat ∧ unit.toNat < 0xDC00) := by
    rw [← isHigh_iff, high]
    simp
  have notLow : ¬(0xDC00 ≤ unit.toNat ∧ unit.toNat < 0xE000) := by
    rw [← isLow_iff, low]
    simp
  refine ⟨by unfold Scalar; omega, ?_⟩
  rw [unitsOf, if_pos bound]
  simp

/-- A surrogate pair is a scalar above the basic plane that stands for itself. -/
theorem scalar_of_pair {first second : UInt16} (high : isHigh first = true)
    (low : isLow second = true)
    : Scalar (pairPoint first second)
      ∧ unitsOf (pairPoint first second) = [first, second] := by
  have hh := isHigh_iff.mp high
  have hl := isLow_iff.mp low
  have above : 0x10000 ≤ pairPoint first second := by
    unfold pairPoint
    omega
  have lead : 0xD800 + (pairPoint first second - 0x10000) / 0x400 = first.toNat := by
    unfold pairPoint
    omega
  have trail : 0xDC00 + (pairPoint first second - 0x10000) % 0x400 = second.toNat := by
    unfold pairPoint
    omega
  refine ⟨by unfold Scalar pairPoint; omega, ?_⟩
  rw [unitsOf, if_neg (Nat.not_lt.mpr above), pairUnits, lead, trail]
  simp

variable {text : JsString}

/-- Decoding what was encoded gives the string back, by induction along its code points. -/
theorem decodeWithin_encode (h : WellFormed text) {fuel : Nat}
    (enough : (encode text).length ≤ fuel)
    : decodeWithin fuel (encode text) = text := by
  induction text using encode.induct generalizing fuel with
  | case1 => cases fuel <;> rfl
  | case2 unit =>
      obtain ⟨scalar, units⟩ := scalar_of_unit h.1 h.2
      have bytes : encode [unit] = encodePoint unit.toNat ++ [] := by
        simp [encode, encodeUnit, h.1, h.2]
      rw [bytes] at enough ⊢
      have pos := encodePoint_length_pos unit.toNat
      obtain ⟨less, rfl⟩ : ∃ less, fuel = less + 1 := ⟨fuel - 1, by simp at enough; omega⟩
      rw [decodeWithin_encodePoint scalar, units]
      cases less <;> rfl
  | case3 first second rest pair ih =>
      simp only [Bool.and_eq_true] at pair
      simp only [WellFormed, pair.1, if_true] at h
      obtain ⟨scalar, units⟩ := scalar_of_pair pair.1 pair.2
      have bytes
          : encode (first :: second :: rest)
            = encodePoint (pairPoint first second) ++ encode rest := by
        simp [encode, pair.1, pair.2]
      rw [bytes] at enough ⊢
      have pos := encodePoint_length_pos (pairPoint first second)
      simp only [List.length_append] at enough
      obtain ⟨less, rfl⟩ : ∃ less, fuel = less + 1 := ⟨fuel - 1, by omega⟩
      rw [decodeWithin_encodePoint scalar, units, ih h.2 (by omega)]
      rfl
  | case4 first second rest single ih =>
      have high : isHigh first = false := by
        cases hh : isHigh first with
        | false => rfl
        | true => simp_all [WellFormed]
      simp only [WellFormed, high] at h
      obtain ⟨scalar, units⟩ := scalar_of_unit high h.1
      have bytes
          : encode (first :: second :: rest)
            = encodePoint first.toNat ++ encode (second :: rest) := by
        simp [encode, encodeUnit, high, h.1]
      rw [bytes] at enough ⊢
      have pos := encodePoint_length_pos first.toNat
      simp only [List.length_append] at enough
      obtain ⟨less, rfl⟩ : ∃ less, fuel = less + 1 := ⟨fuel - 1, by omega⟩
      rw [decodeWithin_encodePoint scalar, units, ih h.2 (by omega)]
      rfl

/-- Well-formed strings survive the round trip through bytes. -/
theorem decode_encode (h : WellFormed text)
    : decode (encode text) = text :=
  decodeWithin_encode h (Nat.le_refl _)

/-- An ASCII byte of an encoded code point is that code point. -/
theorem ascii_of_mem_encodePoint (bound : point < 0x110000) (member : byte ∈ encodePoint point)
    (ascii : byte.toNat < 0x80)
    : byte.toNat = point := by
  unfold encodePoint at member
  split at member
  · next small =>
      rw [List.mem_singleton.mp member, toNat_toUInt8 (by omega)]
  -- every byte of a longer encoding is at least 0x80
  have longer : 0x80 ≤ byte.toNat := by
    split at member
    · simp only [List.mem_cons, List.not_mem_nil, or_false] at member
      rcases member with same | same <;>
        rw [same, toNat_toUInt8 (by omega)] <;> omega
    split at member
    · simp only [List.mem_cons, List.not_mem_nil, or_false] at member
      rcases member with same | same | same <;>
        rw [same, toNat_toUInt8 (by omega)] <;> omega
    · simp only [List.mem_cons, List.not_mem_nil, or_false] at member
      rcases member with same | same | same | same <;>
        rw [same, toNat_toUInt8 (by omega)] <;> omega
  omega

/-- An ASCII byte of an encoded string is one of its units, by induction along its code
points.
-/
theorem ascii_of_mem_encode (member : byte ∈ encode text) (ascii : byte.toNat < 0x80)
    : ∃ unit ∈ text, unit.toNat = byte.toNat := by
  have ofUnit {unit : UInt16} (member : byte ∈ encodeUnit unit) : unit.toNat = byte.toNat := by
    have bound := unit.toNat_lt
    unfold encodeUnit at member
    split at member
    · have same := ascii_of_mem_encodePoint (by decide) member ascii
      have : replacement.toNat = 0xFFFD := rfl
      omega
    · exact (ascii_of_mem_encodePoint (by omega) member ascii).symm
  induction text using encode.induct with
  | case1 => simp [encode] at member
  | case2 unit => exact ⟨unit, by simp, ofUnit member⟩
  | case3 first second rest pair ih =>
      simp only [encode, pair, if_true, List.mem_append] at member
      simp only [Bool.and_eq_true] at pair
      have hh := isHigh_iff.mp pair.1
      have hl := isLow_iff.mp pair.2
      rcases member with head | tail
      · have same := ascii_of_mem_encodePoint (by unfold pairPoint; omega) head ascii
        unfold pairPoint at same
        omega
      · obtain ⟨unit, inside, same⟩ := ih tail
        exact ⟨unit, by simp [inside], same⟩
  | case4 first second rest single ih =>
      simp only [encode, single, Bool.false_eq_true, if_false, List.mem_append] at member
      rcases member with head | tail
      · exact ⟨first, by simp, ofUnit head⟩
      · obtain ⟨unit, inside, same⟩ := ih tail
        exact ⟨unit, List.mem_cons_of_mem _ inside, same⟩

theorem encodePoint_length_le (point : Nat) : (encodePoint point).length ≤ 4 := by
  unfold encodePoint
  split
  · simp
  · split
    · simp
    · split <;> simp

/-- A text takes at most four bytes for each of its units, by induction along its pairs. -/
theorem encode_length_le (text : JsString) : (encode text).length ≤ 4 * text.length := by
  have unit_le (unit : UInt16) : (encodeUnit unit).length ≤ 4 := by
    unfold encodeUnit
    split <;> exact encodePoint_length_le _
  induction text using encode.induct with
  | case1 => exact Nat.zero_le _
  | case2 unit => exact unit_le unit
  | case3 first second rest pair ih =>
      have head := encodePoint_length_le (pairPoint first second)
      simp only [encode, pair, if_true, List.length_append, List.length_cons]
      omega
  | case4 first second rest pair ih =>
      have head := unit_le first
      simp only [encode, pair, Bool.false_eq_true, if_false, List.length_append,
        List.length_cons] at ih ⊢
      omega

end PiFabric.Utf8
