import PiFabric.Foundation.JsonObject
import PiFabric.Foundation.NumberValue
import PiFabric.Foundation.Sha256

/-! The archive's SHA-256, whose chaining words and partial block can be written down between any
two pieces of the message and taken up again.
-/

namespace PiFabric.Archive

open Word32 JsString

structure Chain where
  a : Int
  b : Int
  c : Int
  d : Int
  e : Int
  f : Int
  g : Int
  h : Int
deriving DecidableEq

def initialWords : Chain where
  a := 0x6a09e667
  b := 0xbb67ae85
  c := 0x3c6ef372
  d := 0xa54ff53a
  e := 0x510e527f
  f := 0x9b05688c
  g := 0x1f83d9ab
  h := 0x5be0cd19

/-- `K`. -/
def roundConstants : List Int :=
  [0x428a2f98, 0x71374491, 0xb5c0fbcf, 0xe9b5dba5, 0x3956c25b, 0x59f111f1, 0x923f82a4, 0xab1c5ed5,
    0xd807aa98, 0x12835b01, 0x243185be, 0x550c7dc3, 0x72be5d74, 0x80deb1fe, 0x9bdc06a7, 0xc19bf174,
    0xe49b69c1, 0xefbe4786, 0x0fc19dc6, 0x240ca1cc, 0x2de92c6f, 0x4a7484aa, 0x5cb0a9dc, 0x76f988da,
    0x983e5152, 0xa831c66d, 0xb00327c8, 0xbf597fc7, 0xc6e00bf3, 0xd5a79147, 0x06ca6351, 0x14292967,
    0x27b70a85, 0x2e1b2138, 0x4d2c6dfc, 0x53380d13, 0x650a7354, 0x766a0abb, 0x81c2c92e, 0x92722c85,
    0xa2bfe8a1, 0xa81a664b, 0xc24b8b70, 0xc76c51a3, 0xd192e819, 0xd6990624, 0xf40e3585, 0x106aa070,
    0x19a4c116, 0x1e376c08, 0x2748774c, 0x34b0bcb5, 0x391c0cb3, 0x4ed8aa4a, 0x5b9cca4f, 0x682e6ff3,
    0x748f82ee, 0x78a5636f, 0x84c87814, 0x8cc70208, 0x90befffa, 0xa4506ceb, 0xbef9a3f7, 0xc67178f2]

def rotate (n : Int) (bits : Nat) : Int :=
  bitOr (shiftRight n bits) (shiftLeft n (32 - bits))

/-- `bytes.readInt32BE(offset)`. -/
def readInt32BE (bytes : List UInt8) (offset : Nat) : Int :=
  signedOf ((bytes.getD offset 0).toUInt32 <<< 24 ||| (bytes.getD (offset + 1) 0).toUInt32 <<< 16
    ||| (bytes.getD (offset + 2) 0).toUInt32 <<< 8 ||| (bytes.getD (offset + 3) 0).toUInt32)

/-- One more word of the schedule, stored in an `Int32Array`. -/
def scheduleStep (w : List Int) (i : Nat) : List Int :=
  let x := w.getD (i - 15) 0
  let y := w.getD (i - 2) 0
  w ++ [toInt32 (bitXor (bitXor (rotate x 7) (rotate x 18)) (shiftRight x 3) + w.getD (i - 16) 0
    + bitXor (bitXor (rotate y 17) (rotate y 19)) (shiftRight y 10) + w.getD (i - 7) 0)]

def firstWords (bytes : List UInt8) (offset : Nat) : List Int :=
  (List.range 16).map fun i => readInt32BE bytes (offset + i * 4)

def roundStep (chain : Chain) (constant word : Int) : Chain :=
  let t1 := toInt32 (chain.h
    + bitXor (bitXor (rotate chain.e 6) (rotate chain.e 11)) (rotate chain.e 25)
    + bitXor (bitAnd chain.e chain.f) (bitAnd (bitNot chain.e) chain.g) + constant + word)
  let t2 := toInt32 (bitXor (bitXor (rotate chain.a 2) (rotate chain.a 13)) (rotate chain.a 22)
    + bitXor (bitXor (bitAnd chain.a chain.b) (bitAnd chain.a chain.c)) (bitAnd chain.b chain.c))
  {
    a := toInt32 (t1 + t2)
    b := chain.a
    c := chain.b
    d := chain.c
    e := toInt32 (chain.d + t1)
    f := chain.e
    g := chain.f
    h := chain.g
  }

def block (words : Chain) (bytes : List UInt8) (offset : Nat) : Chain :=
  let w := (List.range' 16 48).foldl scheduleStep (firstWords bytes offset)
  let next := (List.range 64).foldl
    (fun chain i => roundStep chain (roundConstants.getD i 0) (w.getD i 0)) words
  {
    a := toUint32 (words.a + next.a)
    b := toUint32 (words.b + next.b)
    c := toUint32 (words.c + next.c)
    d := toUint32 (words.d + next.d)
    e := toUint32 (words.e + next.e)
    f := toUint32 (words.f + next.f)
    g := toUint32 (words.g + next.g)
    h := toUint32 (words.h + next.h)
  }

/-- The hash of the bytes so far: their number is exact up to `2 ^ 53`. -/
structure ArchiveSha256 where
  words : Chain
  bytes : Nat
  tail : List UInt8

/-- The loop over the whole blocks: the words, and the offset of what is left. -/
def absorb (data : List UInt8) (words : Chain) (offset : Nat) : Chain × Nat :=
  if offset + 64 ≤ data.length then absorb data (block words data offset) (offset + 64)
  else (words, offset)
termination_by data.length - offset

def ArchiveSha256.update (hash : ArchiveSha256) (bytes : List UInt8) : ArchiveSha256 :=
  let data := if hash.tail.length ≠ 0 then hash.tail ++ bytes else bytes
  let absorbed := absorb data hash.words 0
  {
    words := absorbed.1
    bytes := hash.bytes + bytes.length
    tail := data.drop absorbed.2
  }

/-- `bytes.toString("hex")`. -/
def hexText (bytes : List UInt8) : JsString :=
  bytes.flatMap fun byte => [Json.hexDigit (byte.toNat / 16), Json.hexDigit (byte.toNat % 16)]

def hexValue (unit : UInt16) : Nat :=
  if isDigit unit then unit.toNat - (unitOf '0').toNat else unit.toNat - (unitOf 'a').toNat + 10

/-- `Buffer.from(text, "hex")` of pairs of lower-case digits. -/
def hexBytes : JsString → List UInt8
  | first :: second :: rest => (hexValue first * 16 + hexValue second).toUInt8 :: hexBytes rest
  | _ => []

/-- `Number.isInteger(n) && n >= 0 && n <= most`. -/
def integerUpTo (most : Int) : Json → Option Int
  | .number number =>
      let value := number.value
      if value.den = 1 ∧ 0 ≤ value.num ∧ value.num ≤ most then some value.num else none
  | _ => none

def chainOf : List Int → Option Chain
  | [a, b, c, d, e, f, g, h] => some { a, b, c, d, e, f, g, h }
  | _ => none

/-- `state.words`, eight numbers of 32 bits. -/
def wordsOf : Option Json → Option Chain
  | some (.array items) => (items.mapM (integerUpTo 0xffffffff)).bind chainOf
  | _ => none

/-- `/^(?:[0-9a-f]{2}){0,63}$/`. -/
def isTail (text : JsString) : Bool :=
  text.all isHexUnit && text.length % 2 == 0 && text.length ≤ 126

/-- `new ArchiveSha256()`. -/
def ArchiveSha256.fresh : ArchiveSha256 where
  words := initialWords
  bytes := 0
  tail := []

/-- `new ArchiveSha256(state)` of a state that was given, none where it throws. -/
def ArchiveSha256.resume (state : Json) : Option ArchiveSha256 :=
  match wordsOf (state.field? "words"), (state.field? "bytes").bind (integerUpTo 9007199254740991),
      state.field? "tail" with
  | some words, some bytes, some (.string tail) =>
      if isTail tail = true ∧ ((tail.length / 2 : Nat) : Int) = bytes % 64 then
        some { words, bytes := bytes.toNat, tail := hexBytes tail }
      else none
  | _, _, _ => none

def Chain.numbers (chain : Chain) : List Int :=
  [chain.a, chain.b, chain.c, chain.d, chain.e, chain.f, chain.g, chain.h]

def ArchiveSha256.state (hash : ArchiveSha256) : Json :=
  .object [
    (lit "words", .array (hash.words.numbers.map fun n => .number (.int n))),
    (lit "bytes", .number (.int hash.bytes)),
    (lit "tail", .string (hexText hash.tail))
  ]

/-- `n.toString(16)` of a number that is not negative. -/
def hexDigits (n : Nat) : JsString :=
  if n < 16 then [Json.hexDigit n] else hexDigits (n / 16) ++ [Json.hexDigit (n % 16)]

/-- `text.padStart(length, "0")`. -/
def padStart (length : Nat) (text : JsString) : JsString :=
  List.replicate (length - text.length) (unitOf '0') ++ text

/-- `writeUInt32BE`. -/
def uint32BE (n : Nat) : List UInt8 :=
  [(n / 0x1000000).toUInt8, (n / 0x10000).toUInt8, (n / 0x100).toUInt8, n.toUInt8]

/-- `pad`: a set bit, zeros, and the number of bits in two words. -/
def padding (hash : ArchiveSha256) : List UInt8 :=
  let length := if hash.tail.length < 56 then 64 - hash.tail.length else 128 - hash.tail.length
  0x80 :: List.replicate (length - 9) 0
    ++ uint32BE (hash.bytes / 0x20000000) ++ uint32BE (toUint32 (hash.bytes * 8)).toNat

def ArchiveSha256.digest (hash : ArchiveSha256) : Option JsString :=
  (ArchiveSha256.resume hash.state).map fun copy =>
    (copy.update (padding hash)).words.numbers.flatMap fun n => padStart 8 (hexDigits n.toNat)

/-- A piece of the message, or a stop: the state is written as JSON, read and resumed. -/
inductive Feed where
  | update (bytes : List UInt8)
  | stop

def Feed.bytes : Feed → List UInt8
  | .update bytes => bytes
  | .stop => []

def feedStep (hash : ArchiveSha256) : Feed → Option ArchiveSha256
  | .update bytes => some (hash.update bytes)
  | .stop => (Json.parse (Json.stringify hash.state)).bind ArchiveSha256.resume

end PiFabric.Archive

/-! The archive's arithmetic on numbers computes SHA-256's on words, block by block. -/

namespace PiFabric.Archive

open Word32

def Chain.toWords (chain : Chain) : Sha256.Words where
  a := word chain.a
  b := word chain.b
  c := word chain.c
  d := word chain.d
  e := word chain.e
  f := word chain.f
  g := word chain.g
  h := word chain.h

def numbersOf (words : Sha256.Words) : Chain where
  a := unsignedOf words.a
  b := unsignedOf words.b
  c := unsignedOf words.c
  d := unsignedOf words.d
  e := unsignedOf words.e
  f := unsignedOf words.f
  g := unsignedOf words.g
  h := unsignedOf words.h

@[simp] theorem toWords_numbersOf (words : Sha256.Words) : (numbersOf words).toWords = words := by
  simp [Chain.toWords, numbersOf]

theorem word_rotate (n : Int) {bits : Nat} (h : bits ≤ 32)
    : word (rotate n bits) = Sha256.rotateRight (word n) bits.toUInt32 := by
  have rest : (32 - bits).toUInt32 = 32 - bits.toUInt32 := UInt32.ofNat_sub h
  rw [rotate, word_bitOr, word_shiftRight, word_shiftLeft, rest]
  rfl

theorem word_readInt32BE (bytes : List UInt8) (offset : Nat)
    : word (readInt32BE bytes offset) = Sha256.wordAt bytes offset :=
  word_signedOf _

theorem word_mixLow (n : Int)
    : word (bitXor (bitXor (rotate n 7) (rotate n 18)) (shiftRight n 3))
        = Sha256.mixLow (word n) := by
  rw [word_bitXor, word_bitXor, word_rotate n (by decide), word_rotate n (by decide),
    word_shiftRight]
  rfl

theorem word_mixHigh (n : Int)
    : word (bitXor (bitXor (rotate n 17) (rotate n 19)) (shiftRight n 10))
        = Sha256.mixHigh (word n) := by
  rw [word_bitXor, word_bitXor, word_rotate n (by decide), word_rotate n (by decide),
    word_shiftRight]
  rfl

/-- The array after some steps holds the words of the sequence that its first 16 start, by induction
on the steps.
-/
theorem scheduleSteps_words {words : Nat → UInt32} (expands : Sha256.Expands words)
    {first : List Int} (size : first.length = 16)
    (start : ∀ i < 16, word (first.getD i 0) = words i)
    (count : Nat)
    : ((List.range' 16 count).foldl scheduleStep first).length = 16 + count
        ∧ ∀ i < 16 + count,
            word (((List.range' 16 count).foldl scheduleStep first).getD i 0) = words i := by
  induction count with
  | zero => exact ⟨size, start⟩
  | succ count ih =>
      obtain ⟨length, held⟩ := ih
      rw [List.range'_concat, List.foldl_append, List.foldl_cons, List.foldl_nil]
      generalize (List.range' 16 count).foldl scheduleStep first = w at length held
      have place : 16 + 1 * count = 16 + count := by omega
      rw [place, scheduleStep]
      refine ⟨by rw [List.length_append, length]; rfl, ?_⟩
      intro i below
      by_cases earlier : i < 16 + count
      · rw [List.getD_append _ _ _ _ (by omega)]
        exact held i earlier
      · obtain rfl : i = 16 + count := by omega
        have back (distance : Nat) (near : distance ≤ 16) (some : 0 < distance)
            : word (w.getD (16 + count - distance) 0) = words (16 + count - distance) :=
          held _ (by omega)
        have next := expands count
        have places : count + 16 = 16 + count ∧ count + 14 = 16 + count - 2
            ∧ count + 9 = 16 + count - 7 ∧ count + 1 = 16 + count - 15
            ∧ count = 16 + count - 16 := by omega
        rw [List.getD_append_right _ _ _ _ (by omega), length, Nat.sub_self, List.getD_cons_zero,
          word_toInt32, word_add, word_add, word_add, word_mixLow, word_mixHigh,
          back 15 (by decide) (by decide), back 2 (by decide) (by decide),
          back 16 (by decide) (by decide), back 7 (by decide) (by decide)]
        rw [places.1, places.2.1, places.2.2.1, places.2.2.2.1] at next
        have oldest : words count = words (16 + count - 16) := congrArg words places.2.2.2.2
        rw [next, oldest]
        ac_rfl

theorem toWords_roundStep (chain : Chain) (constant added : Int)
    : (roundStep chain constant added).toWords
        = Sha256.round chain.toWords (word constant + word added) := by
  have sums (n : Int) (first second third : Nat) (one : first ≤ 32) (two : second ≤ 32)
      (three : third ≤ 32)
      : word (bitXor (bitXor (rotate n first) (rotate n second)) (rotate n third))
        = Sha256.rotateRight (word n) first.toUInt32 ^^^ Sha256.rotateRight (word n) second.toUInt32
          ^^^ Sha256.rotateRight (word n) third.toUInt32 := by
    rw [word_bitXor, word_bitXor, word_rotate n one, word_rotate n two, word_rotate n three]
  have sumE := sums chain.e 6 11 25 (by decide) (by decide) (by decide)
  have sumA := sums chain.a 2 13 22 (by decide) (by decide) (by decide)
  simp only [roundStep, Chain.toWords, word_toInt32, word_add, sumE, sumA, word_bitXor, word_bitAnd,
    word_bitNot, Sha256.round, Sha256.choose, Sha256.majority, add_assoc]
  rfl

theorem word_roundConstants (i : Nat)
    : word (roundConstants.getD i 0) = Sha256.constants.getD i 0 := by
  have listed : roundConstants.map word = Sha256.constants := by decide
  rw [← listed]
  simp only [List.getD_eq_getElem?_getD, List.getElem?_map]
  cases roundConstants[i]? <;> rfl

theorem getD_block {bytes : List UInt8} {offset place : Nat} (below : place < 64)
    : ((bytes.drop offset).take 64).getD place 0 = bytes.getD (offset + place) 0 := by
  simp only [List.getD_eq_getElem?_getD, List.getElem?_take_of_lt below, List.getElem?_drop]

/-- One block is SHA-256's compression of its bytes, whatever numbers the words are written as. -/
theorem block_eq {bytes : List UInt8} {offset : Nat} (whole : offset + 64 ≤ bytes.length)
    (chain : Chain)
    : block chain bytes offset
        = numbersOf (Sha256.compress chain.toWords ((bytes.drop offset).take 64)) := by
  have size : ((bytes.drop offset).take 64).length = 64 := by
    rw [List.length_take, List.length_drop]
    omega
  have read (i : Nat) (below : i < 16)
      : word ((firstWords bytes offset).getD i 0)
        = Sha256.wordAt ((bytes.drop offset).take 64) (i * 4) := by
    have item : (firstWords bytes offset).getD i 0 = readInt32BE bytes (offset + i * 4) := by
      rw [firstWords, List.getD_eq_getElem?_getD, List.getElem?_map,
        List.getElem?_range below]
      rfl
    rw [item, word_readInt32BE]
    unfold Sha256.wordAt
    rw [getD_block (by omega), getD_block (by omega), getD_block (by omega), getD_block (by omega)]
    rfl
  obtain ⟨words, expands, first⟩ := Sha256.exists_expands
    ((List.range 16).map fun i => Sha256.wordAt ((bytes.drop offset).take 64) (i * 4))
  have starts (i : Nat) (below : i < 16)
      : words i = Sha256.wordAt ((bytes.drop offset).take 64) (i * 4) := by
    rw [first i below, List.getD_eq_getElem?_getD, List.getElem?_map, List.getElem?_range below]
    rfl
  have schedule := (scheduleSteps_words expands (by simp [firstWords])
    (fun i below => (read i below).trans (starts i below).symm) 48).2
  have rounds := Sha256.compress_rounds size expands starts chain.toWords
  generalize steps : (List.range' 16 48).foldl scheduleStep (firstWords bytes offset) = w
    at schedule
  have last : ((List.range 64).foldl
        (fun chain i => roundStep chain (roundConstants.getD i 0) (w.getD i 0)) chain).toWords
      = (List.range 64).foldl
          (fun chain i => Sha256.round chain (Sha256.constants.getD i 0 + words i))
          chain.toWords := by
    have stepped : (List.range 64).foldl
          (fun chain i => Sha256.round chain (word (roundConstants.getD i 0) + word (w.getD i 0)))
          chain.toWords
        = ((List.range 64).foldl
            (fun chain i => roundStep chain (roundConstants.getD i 0) (w.getD i 0))
            chain).toWords :=
      List.foldl_hom Chain.toWords fun state i => (toWords_roundStep state _ _).symm
    rw [← stepped]
    refine List.foldl_ext _ _ _ fun state i member => ?_
    rw [word_roundConstants, schedule i (List.mem_range.mp member)]
  simp only [block, steps, toUint32, word_add, numbersOf, Sha256.compress]
  rw [rounds, ← last]
  rfl

end PiFabric.Archive
