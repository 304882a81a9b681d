import Mathlib.Data.List.Range
import Mathlib.Data.UInt
import Mathlib.Tactic.Ring
import PiFabric.Foundation.Json

/-! SHA-256 of a sequence of bytes, as the platform's `crypto` computes it. -/

namespace PiFabric.Sha256

open JsString

def constants : List UInt32 :=
  [0x428a2f98, 0x71374491, 0xb5c0fbcf, 0xe9b5dba5, 0x3956c25b, 0x59f111f1, 0x923f82a4, 0xab1c5ed5,
    0xd807aa98, 0x12835b01, 0x243185be, 0x550c7dc3, 0x72be5d74, 0x80deb1fe, 0x9bdc06a7, 0xc19bf174,
    0xe49b69c1, 0xefbe4786, 0x0fc19dc6, 0x240ca1cc, 0x2de92c6f, 0x4a7484aa, 0x5cb0a9dc, 0x76f988da,
    0x983e5152, 0xa831c66d, 0xb00327c8, 0xbf597fc7, 0xc6e00bf3, 0xd5a79147, 0x06ca6351, 0x14292967,
    0x27b70a85, 0x2e1b2138, 0x4d2c6dfc, 0x53380d13, 0x650a7354, 0x766a0abb, 0x81c2c92e, 0x92722c85,
    0xa2bfe8a1, 0xa81a664b, 0xc24b8b70, 0xc76c51a3, 0xd192e819, 0xd6990624, 0xf40e3585, 0x106aa070,
    0x19a4c116, 0x1e376c08, 0x2748774c, 0x34b0bcb5, 0x391c0cb3, 0x4ed8aa4a, 0x5b9cca4f, 0x682e6ff3,
    0x748f82ee, 0x78a5636f, 0x84c87814, 0x8cc70208, 0x90befffa, 0xa4506ceb, 0xbef9a3f7, 0xc67178f2]

structure Words where
  a : UInt32
  b : UInt32
  c : UInt32
  d : UInt32
  e : UInt32
  f : UInt32
  g : UInt32
  h : UInt32

def initial : Words where
  a := 0x6a09e667
  b := 0xbb67ae85
  c := 0x3c6ef372
  d := 0xa54ff53a
  e := 0x510e527f
  f := 0x9b05688c
  g := 0x1f83d9ab
  h := 0x5be0cd19

def rotateRight (word count : UInt32) : UInt32 :=
  word >>> count ||| word <<< (32 - count)

def choose (e f g : UInt32) : UInt32 :=
  e &&& f ^^^ ~~~e &&& g

def majority (a b c : UInt32) : UInt32 :=
  a &&& b ^^^ a &&& c ^^^ b &&& c

/-- One round, with the constant and the schedule word it adds. -/
def round (words : Words) (added : UInt32) : Words :=
  let sumE := rotateRight words.e 6 ^^^ rotateRight words.e 11 ^^^ rotateRight words.e 25
  let sumA := rotateRight words.a 2 ^^^ rotateRight words.a 13 ^^^ rotateRight words.a 22
  let first := words.h + sumE + choose words.e words.f words.g + added
  let second := sumA + majority words.a words.b words.c
  {
    a := first + second
    b := words.a
    c := words.b
    d := words.c
    e := words.d + first
    f := words.e
    g := words.f
    h := words.g
  }

/-- The next words of the schedule, from a window of its last sixteen. -/
def schedule : Nat → List UInt32 → List UInt32
  | 0, _ => []
  | _, [] => []
  | count + 1, oldest :: rest =>
      let low := rest.getD 0 0
      let high := rest.getD 13 0
      let mixLow := rotateRight low 7 ^^^ rotateRight low 18 ^^^ low >>> 3
      let mixHigh := rotateRight high 17 ^^^ rotateRight high 19 ^^^ high >>> 10
      oldest :: schedule count (rest ++ [mixHigh + rest.getD 8 0 + mixLow + oldest])

def wordsOf : List UInt8 → List UInt32
  | first :: second :: third :: fourth :: rest =>
      (first.toUInt32 <<< 24 ||| second.toUInt32 <<< 16 ||| third.toUInt32 <<< 8
        ||| fourth.toUInt32) :: wordsOf rest
  | _ => []

def compress (words : Words) (block : List UInt8) : Words :=
  let last := (List.zipWith (· + ·) constants (schedule 64 (wordsOf block))).foldl round words
  {
    a := words.a + last.a
    b := words.b + last.b
    c := words.c + last.c
    d := words.d + last.d
    e := words.e + last.e
    f := words.f + last.f
    g := words.g + last.g
    h := words.h + last.h
  }

/-- The message with its padding: a set bit, zeros, and its length in bits. -/
def pad (message : List UInt8) : List UInt8 :=
  let bits := message.length * 8
  let mark : List UInt8 := 0x80 :: List.replicate ((119 - message.length % 64) % 64) 0
  message ++ mark ++ (List.range 8).map fun index => (bits >>> (8 * (7 - index))).toUInt8

def blocks : Nat → List UInt8 → List (List UInt8)
  | 0, _ => []
  | count + 1, bytes => bytes.take 64 :: blocks count (bytes.drop 64)

def hexOf (word : UInt32) : JsString :=
  (List.range 8).map fun index => Json.hexDigit ((word >>> (28 - 4 * index).toUInt32).toNat % 16)

/-- `createHash("sha256").update(message).digest("hex")`. -/
def hex (message : List UInt8) : JsString :=
  let padded := pad message
  let words := (blocks (padded.length / 64) padded).foldl compress initial
  [words.a, words.b, words.c, words.d, words.e, words.f, words.g, words.h].flatMap hexOf

example : hex [0x61, 0x62, 0x63]
    = lit "ba7816bf8f01cfea414140de5dae2223b00361a396177a9cb410ff61f20015ad" := by
  decide +kernel

theorem length_hex (message : List UInt8) : (hex message).length = 64 := by
  simp [hex, hexOf]

/-- A digest is written in lower-case hexadecimal digits. -/
theorem isHexUnit_of_mem_hex {message : List UInt8} {unit : UInt16}
    (h : unit ∈ hex message)
    : isHexUnit unit = true := by
  obtain ⟨word, -, member⟩ := List.mem_flatMap.mp h
  obtain ⟨index, -, rfl⟩ := List.mem_map.mp member
  have digit : ∀ n < 16, isHexUnit (Json.hexDigit n) = true := by decide
  exact digit _ (Nat.mod_lt _ (by decide))

end PiFabric.Sha256

/-! JavaScript's operations on 32-bit words, over numbers that are integers. Each takes the low 32
bits of its operands, whatever their sign, so it computes the word operation on them.
-/

namespace PiFabric.Word32

def word (n : Int) : UInt32 :=
  ⟨BitVec.ofInt 32 n⟩

def signedOf (bits : UInt32) : Int :=
  bits.toBitVec.toInt

def unsignedOf (bits : UInt32) : Int :=
  bits.toNat

/-- `n | 0`. -/
def toInt32 (n : Int) : Int :=
  signedOf (word n)

/-- `n >>> 0`. -/
def toUint32 (n : Int) : Int :=
  unsignedOf (word n)

def bitAnd (left right : Int) : Int :=
  signedOf (word left &&& word right)

def bitOr (left right : Int) : Int :=
  signedOf (word left ||| word right)

def bitXor (left right : Int) : Int :=
  signedOf (word left ^^^ word right)

def bitNot (n : Int) : Int :=
  signedOf (~~~word n)

/-- `n << count`. -/
def shiftLeft (n : Int) (count : Nat) : Int :=
  signedOf (word n <<< count.toUInt32)

/-- `n >>> count`. -/
def shiftRight (n : Int) (count : Nat) : Int :=
  unsignedOf (word n >>> count.toUInt32)

@[simp] theorem word_signedOf (bits : UInt32) : word (signedOf bits) = bits := by
  rw [word, signedOf, BitVec.ofInt_toInt]

@[simp] theorem word_unsignedOf (bits : UInt32) : word (unsignedOf bits) = bits := by
  rw [word, unsignedOf, BitVec.ofInt_natCast]
  have same : BitVec.ofNat 32 bits.toBitVec.toNat = bits.toBitVec := by
    rw [BitVec.ofNat_toNat, BitVec.setWidth_eq]
  exact congrArg UInt32.ofBitVec same

@[simp] theorem word_add (left right : Int) : word (left + right) = word left + word right := by
  rw [word, BitVec.ofInt_add]
  rfl

@[simp] theorem word_toInt32 (n : Int) : word (toInt32 n) = word n :=
  word_signedOf _

@[simp] theorem word_bitAnd (left right : Int)
    : word (bitAnd left right) = word left &&& word right :=
  word_signedOf _

@[simp] theorem word_bitOr (left right : Int)
    : word (bitOr left right) = word left ||| word right :=
  word_signedOf _

@[simp] theorem word_bitXor (left right : Int)
    : word (bitXor left right) = word left ^^^ word right :=
  word_signedOf _

@[simp] theorem word_bitNot (n : Int) : word (bitNot n) = ~~~word n :=
  word_signedOf _

@[simp] theorem word_shiftLeft (n : Int) (count : Nat)
    : word (shiftLeft n count) = word n <<< count.toUInt32 :=
  word_signedOf _

@[simp] theorem word_shiftRight (n : Int) (count : Nat)
    : word (shiftRight n count) = word n >>> count.toUInt32 :=
  word_unsignedOf _

end PiFabric.Word32

/-! SHA-256's message schedule as a sequence that obeys a recurrence, and one block's compression as
a fold over its first 64 words.
-/

namespace PiFabric.Sha256

def mixLow (word : UInt32) : UInt32 :=
  rotateRight word 7 ^^^ rotateRight word 18 ^^^ word >>> 3

def mixHigh (word : UInt32) : UInt32 :=
  rotateRight word 17 ^^^ rotateRight word 19 ^^^ word >>> 10

/-- A sequence that goes on as a schedule does. -/
def Expands (words : Nat → UInt32) : Prop :=
  ∀ i, words (i + 16) = mixHigh (words (i + 14)) + words (i + 9) + mixLow (words (i + 1)) + words i

/-- Every 16 words are the start of such a sequence. -/
theorem exists_expands (first : List UInt32)
    : ∃ words, Expands words ∧ ∀ i < 16, words i = first.getD i 0 := by
  let window : Nat → Nat → UInt32 := fun n => Nat.rec (fun i => first.getD i 0)
    (fun _ window i =>
      if i < 15 then window (i + 1)
      else mixHigh (window 14) + window 9 + mixLow (window 1) + window 0) n
  have shift (n i : Nat) (below : i < 15) : window (n + 1) i = window n (i + 1) := if_pos below
  have slide (n i k : Nat) (below : i + k < 16) : window (n + k) i = window n (i + k) := by
    induction k generalizing n with
    | zero => rfl
    | succ k ih =>
        have later := ih (n + 1) (by omega)
        rw [Nat.add_right_comm] at later
        rw [← Nat.add_assoc, later, shift n (i + k) (by omega)]
        rfl
  have last (n : Nat) : window (n + 1) 15
      = mixHigh (window n 14) + window n 9 + mixLow (window n 1) + window n 0 :=
    if_neg (by decide)
  refine ⟨fun n => window n 0, ?_, ?_⟩
  · intro n
    have at_ (k : Nat) (below : k < 16) : window (n + k) 0 = window n k := by
      have moved := slide n 0 k (by omega)
      rwa [Nat.zero_add] at moved
    have next : window (n + 16) 0 = window (n + 1) 15 := by
      have moved := slide (n + 1) 0 15 (by decide)
      rwa [Nat.zero_add, Nat.add_assoc] at moved
    change window (n + 16) 0 = mixHigh (window (n + 14) 0) + window (n + 9) 0
      + mixLow (window (n + 1) 0) + window n 0
    rw [next, last, at_ 14 (by decide), at_ 9 (by decide), at_ 1 (by decide)]
  · intro i below
    have moved := slide 0 0 i (by omega)
    rwa [Nat.zero_add] at moved

/-- The schedule from a window of such a sequence lists the sequence, by induction on how much of it
is asked for.
-/
theorem schedule_eq {words : Nat → UInt32} (expands : Expands words) (count start : Nat)
    : schedule count ((List.range 16).map fun i => words (start + i))
        = (List.range count).map fun i => words (start + i) := by
  induction count generalizing start with
  | zero => rfl
  | succ count ih =>
      have later := ih (start + 1)
      have window : ((List.range 16).map fun i => words (start + i))
          = words start :: (List.range 15).map fun i => words (start + 1 + i) := by
        rw [List.range_succ_eq_map, List.map_cons, List.map_map]
        refine congrArg (words start :: ·) (List.map_congr_left fun i _ => ?_)
        exact congrArg words (by simp only [Nat.succ_eq_add_one]; omega)
      have slid : ((List.range 15).map fun i => words (start + 1 + i))
            ++ [mixHigh (words (start + 14)) + words (start + 9) + mixLow (words (start + 1))
              + words start]
          = (List.range 16).map fun i => words (start + 1 + i) := by
        rw [List.range_succ (n := 15), List.map_append, ← expands start]
        rfl
      have rest : (List.range (count + 1)).map (fun i => words (start + i))
          = words start :: (List.range count).map fun i => words (start + 1 + i) := by
        rw [List.range_succ_eq_map, List.map_cons, List.map_map]
        refine congrArg (words start :: ·) (List.map_congr_left fun i _ => ?_)
        exact congrArg words (by simp only [Nat.succ_eq_add_one]; omega)
      rw [window, rest, schedule, ← later, ← slid]
      rfl

def wordAt (bytes : List UInt8) (place : Nat) : UInt32 :=
  (bytes.getD place 0).toUInt32 <<< 24 ||| (bytes.getD (place + 1) 0).toUInt32 <<< 16
    ||| (bytes.getD (place + 2) 0).toUInt32 <<< 8 ||| (bytes.getD (place + 3) 0).toUInt32

/-- A block's words stand four bytes apart, by induction on their number. -/
theorem wordsOf_eq {count : Nat} {bytes : List UInt8} (size : bytes.length = count * 4)
    : wordsOf bytes = (List.range count).map fun i => wordAt bytes (i * 4) := by
  induction count generalizing bytes with
  | zero =>
      obtain rfl := List.length_eq_zero_iff.mp (size.trans (Nat.zero_mul 4))
      rfl
  | succ count ih =>
      rcases bytes with _ | ⟨first, _ | ⟨second, _ | ⟨third, _ | ⟨fourth, rest⟩⟩⟩⟩
      iterate 4 (simp only [List.length_cons, List.length_nil] at size; omega)
      have tail : rest.length = count * 4 := by
        simp only [List.length_cons] at size
        omega
      rw [wordsOf, ih tail, List.range_succ_eq_map, List.map_cons, List.map_map]
      refine congrArg₂ List.cons rfl (List.map_congr_left fun i _ => ?_)
      have place : Nat.succ i * 4 = i * 4 + 4 := by omega
      simp only [Function.comp_apply, place]
      rfl

/-- A block is compressed by 64 rounds over its schedule. -/
theorem compress_rounds {block : List UInt8} (size : block.length = 64) {words : Nat → UInt32}
    (expands : Expands words) (first : ∀ i < 16, words i = wordAt block (i * 4)) (start : Words)
    : (List.zipWith (· + ·) constants (schedule 64 (wordsOf block))).foldl round start
        = (List.range 64).foldl
            (fun chain i => round chain (constants.getD i 0 + words i)) start := by
  have whole : block.length = 16 * 4 := size
  have window : wordsOf block = (List.range 16).map fun i => words (0 + i) := by
    rw [wordsOf_eq whole]
    refine List.map_congr_left fun i member => ?_
    rw [Nat.zero_add, first i (List.mem_range.mp member)]
  have listed : constants = (List.range 64).map fun i => constants.getD i 0 := by decide
  have added : List.zipWith (· + ·) constants ((List.range 64).map fun i => words (0 + i))
      = (List.range 64).map fun i => constants.getD i 0 + words i := by
    conv_lhs => rw [listed]
    rw [List.zipWith_map, List.zipWith_self]
    refine List.map_congr_left fun i _ => ?_
    rw [Nat.zero_add]
  rw [window, schedule_eq expands, added, List.foldl_map]

end PiFabric.Sha256
