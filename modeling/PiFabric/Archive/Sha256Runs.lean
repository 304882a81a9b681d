import PiFabric.Archive.Sha256
import PiFabric.Foundation.Outcome

/-! However the archive's hash is fed and wherever it is stopped and resumed, its digest is the
SHA-256 of the whole message.
-/

namespace PiFabric.Archive

open JsString Word32

/-- A number's last digits, as many as are asked for. -/
def fixedDigits : Nat → Nat → JsString
  | 0, _ => []
  | width + 1, n => fixedDigits width (n / 16) ++ [Json.hexDigit (n % 16)]

theorem fixedDigits_zero (width : Nat)
    : fixedDigits width 0 = List.replicate width (unitOf '0') := by
  induction width with
  | zero => rfl
  | succ width ih =>
      rw [fixedDigits, Nat.zero_div, ih, List.replicate_succ']
      rfl

/-- A number that fits is padded to its fixed digits, by induction on the width. -/
theorem padStart_hexDigits {width n : Nat} (fits : n < 16 ^ (width + 1))
    : padStart (width + 1) (hexDigits n) = fixedDigits (width + 1) n := by
  induction width generalizing n with
  | zero =>
      have small : n < 16 := by simpa using fits
      rw [hexDigits, if_pos small, fixedDigits, fixedDigits, Nat.mod_eq_of_lt small]
      rfl
  | succ width ih =>
      by_cases small : n < 16
      · rw [hexDigits, if_pos small, fixedDigits, Nat.div_eq_of_lt small, Nat.mod_eq_of_lt small,
          fixedDigits_zero]
        rfl
      · have less : n / 16 < 16 ^ (width + 1) := by
          rw [Nat.div_lt_iff_lt_mul (by decide)]
          rwa [pow_succ] at fits
        rw [hexDigits, if_neg small, fixedDigits, ← ih less, padStart, padStart, List.length_append,
          List.length_singleton, Nat.add_sub_add_right, List.append_assoc]

theorem hexOf_eq (bits : UInt32)
    : Sha256.hexOf bits = padStart 8 (hexDigits (unsignedOf bits).toNat) := by
  have fits : bits.toNat < 16 ^ (7 + 1) := bits.toNat_lt
  have number : (unsignedOf bits).toNat = bits.toNat := Int.toNat_natCast _
  rw [number, padStart_hexDigits fits]
  simp only [fixedDigits, Nat.div_div_eq_div_mul]
  simp [Sha256.hexOf, List.range_succ, UInt32.toNat_shiftRight, Nat.shiftRight_eq_div_pow]

theorem hexValue_hexDigit {n : Nat} (small : n < 16) : hexValue (Json.hexDigit n) = n := by
  have all : ∀ n < 16, hexValue (Json.hexDigit n) = n := by decide
  exact all n small

theorem isHexUnit_hexDigit {n : Nat} (small : n < 16) : isHexUnit (Json.hexDigit n) = true := by
  have all : ∀ n < 16, isHexUnit (Json.hexDigit n) = true := by decide
  exact all n small

theorem hexBytes_hexText (bytes : List UInt8) : hexBytes (hexText bytes) = bytes := by
  induction bytes with
  | nil => rfl
  | cons byte rest ih =>
      have bound := byte.toNat_lt
      have high : byte.toNat / 16 < 16 := by omega
      have low : byte.toNat % 16 < 16 := Nat.mod_lt _ (by decide)
      have whole : byte.toNat / 16 * 16 + byte.toNat % 16 = byte.toNat := by omega
      change (hexValue _ * 16 + hexValue _).toUInt8 :: hexBytes (hexText rest) = byte :: rest
      rw [ih, hexValue_hexDigit high, hexValue_hexDigit low, whole]
      exact congrArg (· :: rest) (UInt8.ofNat_toNat)

theorem length_hexText (bytes : List UInt8) : (hexText bytes).length = 2 * bytes.length := by
  simp [hexText, List.length_flatMap]
  omega

theorem isTail_hexText {bytes : List UInt8} (short : bytes.length < 64)
    : isTail (hexText bytes) = true := by
  have digits : (hexText bytes).all isHexUnit = true := by
    rw [List.all_eq_true]
    intro unit member
    obtain ⟨byte, -, among⟩ := List.mem_flatMap.mp member
    have bound := byte.toNat_lt
    simp only [List.mem_cons, List.not_mem_nil, or_false] at among
    rcases among with rfl | rfl
    · exact isHexUnit_hexDigit (by omega)
    · exact isHexUnit_hexDigit (Nat.mod_lt _ (by decide))
  rw [isTail, digits, length_hexText]
  simp
  omega

theorem integerUpTo_int {most n : Int} (low : 0 ≤ n) (high : n ≤ most)
    : integerUpTo most (.number (.int n)) = some n := by
  have value : (JsNumber.int n).value = (n : ℚ) := rfl
  simp only [integerUpTo, value, Rat.den_intCast, Rat.num_intCast]
  exact if_pos ⟨trivial, low, high⟩

theorem wordsOf_numbers (words : Sha256.Words)
    : wordsOf (some (.array ((numbersOf words).numbers.map fun n => .number (.int n))))
        = some (numbersOf words) := by
  have item (bits : UInt32)
      : integerUpTo 0xffffffff (.number (.int (unsignedOf bits))) = some (unsignedOf bits) := by
    have bound := bits.toNat_lt
    refine integerUpTo_int (Int.natCast_nonneg _) ?_
    unfold unsignedOf
    omega
  simp only [wordsOf, Chain.numbers, numbersOf, List.map_cons, List.map_nil, List.mapM_cons, item]
  rfl

variable {hash : ArchiveSha256}

/-- A state that is written down is resumed as it was. -/
theorem resume_state {words : Sha256.Words} (canonical : hash.words = numbersOf words)
    (safe : hash.bytes ≤ 9007199254740991) (short : hash.tail.length < 64)
    (rest : hash.tail.length = hash.bytes % 64)
    : ArchiveSha256.resume hash.state = some hash := by
  obtain ⟨chain, bytes, tail⟩ := hash
  obtain rfl : chain = numbersOf words := canonical
  have read : integerUpTo 9007199254740991 (.number (.int (bytes : Int))) = some (bytes : Int) :=
    integerUpTo_int (Int.natCast_nonneg _) (by exact_mod_cast safe)
  have fits : isTail (hexText tail) = true
      ∧ (((hexText tail).length / 2 : Nat) : Int) = (bytes : Int) % 64 := by
    refine ⟨isTail_hexText short, ?_⟩
    rw [length_hexText]
    simp only at rest
    omega
  have fields : (ArchiveSha256.state ⟨numbersOf words, bytes, tail⟩).field? "words"
        = some (.array ((numbersOf words).numbers.map fun n => .number (.int n)))
      ∧ (ArchiveSha256.state ⟨numbersOf words, bytes, tail⟩).field? "bytes"
        = some (.number (.int bytes))
      ∧ (ArchiveSha256.state ⟨numbersOf words, bytes, tail⟩).field? "tail"
        = some (.string (hexText tail)) := ⟨rfl, rfl, rfl⟩
  rw [ArchiveSha256.resume, fields.1, fields.2.1, fields.2.2, wordsOf_numbers, Option.bind_some,
    read]
  simp only
  rw [if_pos fits, hexBytes_hexText, Int.toNat_natCast]

def absorbed (count : Nat) (bytes : List UInt8) (words : Sha256.Words) : Sha256.Words :=
  (Sha256.blocks count bytes).foldl Sha256.compress words

/-- Blocks in front are compressed first, by induction on their number. -/
theorem absorbed_append {count more : Nat} {first : List UInt8} (size : first.length = 64 * count)
    (second : List UInt8) (words : Sha256.Words)
    : absorbed (count + more) (first ++ second) words
        = absorbed more second (absorbed count first words) := by
  induction count generalizing first words with
  | zero =>
      obtain rfl := List.length_eq_zero_iff.mp size
      rw [Nat.zero_add]
      rfl
  | succ count ih =>
      have head : (first ++ second).take 64 = first.take 64 :=
        List.take_append_of_le_length (by omega)
      have tail : (first ++ second).drop 64 = first.drop 64 ++ second :=
        List.drop_append_of_le_length (by omega)
      have rest : (first.drop 64).length = 64 * count := by
        rw [List.length_drop]
        omega
      rw [Nat.succ_add_eq_add_succ]
      change absorbed (count + more) ((first ++ second).drop 64)
        (Sha256.compress words ((first ++ second).take 64)) = _
      rw [head, tail, ih rest]
      rfl

/-- The loop compresses every whole block from its offset on, by induction on the bytes that are
left.
-/
theorem absorb_eq (data : List UInt8) (words : Sha256.Words) (offset : Nat)
    : absorb data (numbersOf words) offset
        = (numbersOf (absorbed ((data.length - offset) / 64) (data.drop offset) words),
          offset + 64 * ((data.length - offset) / 64)) := by
  induction remaining : data.length - offset using Nat.strong_induction_on
    generalizing words offset with
  | _ left ih =>
      rw [absorb]
      by_cases whole : offset + 64 ≤ data.length
      · have less : data.length - (offset + 64) < left := by omega
        have count : left / 64 = (data.length - (offset + 64)) / 64 + 1 := by omega
        rw [if_pos whole, block_eq whole, toWords_numbersOf, ih _ less _ _ rfl, count]
        refine Prod.ext ?_ (by simp only; omega)
        change _ = numbersOf (absorbed _ ((data.drop offset).drop 64) _)
        rw [List.drop_drop]
      · have none : left / 64 = 0 := Nat.div_eq_of_lt (by omega)
        rw [if_neg whole, none]
        rfl

/-- A hash has been fed a message: its words are those after the message's whole blocks, its tail is
the rest.
-/
structure Fed (hash : ArchiveSha256) (message : List UInt8) : Prop where
  bytes : hash.bytes = message.length
  short : hash.tail.length < 64
  split : ∃ consumed count, message = consumed ++ hash.tail ∧ consumed.length = 64 * count
    ∧ hash.words = numbersOf (absorbed count consumed Sha256.initial)

theorem fed_fresh : Fed .fresh [] :=
  ⟨rfl, by decide, [], 0, rfl, rfl, rfl⟩

variable {message : List UInt8}

theorem Fed.update (fed : Fed hash message) (bytes : List UInt8)
    : Fed (hash.update bytes) (message ++ bytes) := by
  obtain ⟨consumed, count, whole, size, words⟩ := fed.split
  have data
      : (if hash.tail.length ≠ 0 then hash.tail ++ bytes else bytes) = hash.tail ++ bytes := by
    split
    · rfl
    · rename_i empty
      rw [List.length_eq_zero_iff.mp (not_not.mp empty), List.nil_append]
  have loop := absorb_eq (hash.tail ++ bytes) (absorbed count consumed Sha256.initial) 0
  rw [Nat.sub_zero, Nat.zero_add, List.drop_zero] at loop
  generalize taken : (hash.tail ++ bytes).length / 64 = more at loop
  have enough : 64 * more ≤ (hash.tail ++ bytes).length := by omega
  have updated : hash.update bytes = {
      words := numbersOf (absorbed more (hash.tail ++ bytes)
        (absorbed count consumed Sha256.initial))
      bytes := hash.bytes + bytes.length
      tail := (hash.tail ++ bytes).drop (64 * more)
    } := by
    rw [ArchiveSha256.update, data, words, loop]
  rw [updated]
  refine ⟨?_, ?_, consumed ++ (hash.tail ++ bytes).take (64 * more), count + more, ?_, ?_, ?_⟩
  · rw [List.length_append, fed.bytes]
  · rw [List.length_drop]
    omega
  · rw [List.append_assoc, List.take_append_drop, ← List.append_assoc, ← whole]
  · rw [List.length_append, List.length_take, size]
    omega
  · have cut : (hash.tail ++ bytes).take (64 * more) ++ (hash.tail ++ bytes).drop (64 * more)
        = hash.tail ++ bytes := List.take_append_drop _ _
    have taken_size : ((hash.tail ++ bytes).take (64 * more)).length = 64 * more := by
      rw [List.length_take]
      omega
    have rest := @absorbed_append more 0 _ taken_size ((hash.tail ++ bytes).drop (64 * more))
      (absorbed count consumed Sha256.initial)
    rw [cut, Nat.add_zero] at rest
    rw [absorbed_append size]
    exact congrArg numbersOf rest

theorem Fed.tail_length (fed : Fed hash message)
    : hash.tail.length = hash.bytes % 64 := by
  obtain ⟨consumed, count, whole, size, -⟩ := fed.split
  have short := fed.short
  rw [fed.bytes, whole, List.length_append]
  omega

/-- A hash that has been fed fewer than `2 ^ 53` bytes is resumed as it was. -/
theorem Fed.resume (fed : Fed hash message) (size : message.length < 2 ^ 53)
    : ArchiveSha256.resume hash.state = some hash := by
  obtain ⟨consumed, count, -, -, words⟩ := fed.split
  refine resume_state words ?_ fed.short fed.tail_length
  have bytes := fed.bytes
  omega

/-- The number of bits is written in two words as in eight bytes. -/
theorem length_bytes (n : Nat)
    : uint32BE (n / 0x20000000) ++ uint32BE (toUint32 (n * 8)).toNat
        = (List.range 8).map fun index => ((n * 8) >>> (8 * (7 - index))).toUInt8 := by
  have low : (toUint32 ((n : Int) * 8)).toNat = n * 8 % 2 ^ 32 := by
    have cast : (n : Int) * 8 = ((n * 8 : Nat) : Int) := by push_cast; rfl
    rw [cast, toUint32, word, BitVec.ofInt_natCast, unsignedOf, Int.toNat_natCast]
    exact BitVec.toNat_ofNat _ _
  have byte {left right : Nat} (same : left % 256 = right % 256)
      : left.toUInt8 = right.toUInt8 := by
    apply UInt8.toNat_inj.mp
    simpa using same
  rw [low]
  simp only [uint32BE, List.range_succ, List.range_zero, List.nil_append, List.map_cons, List.map_nil, List.cons_append, Nat.shiftRight_eq_div_pow]
  refine congrArg₂ List.cons (byte ?_) (congrArg₂ List.cons (byte ?_) (congrArg₂ List.cons (byte ?_)
    (congrArg₂ List.cons (byte ?_) (congrArg₂ List.cons (byte ?_) (congrArg₂ List.cons (byte ?_)
      (congrArg₂ List.cons (byte ?_) (congrArg₂ List.cons (byte ?_) rfl))))))) <;> omega

/-- The message with the archive's padding is SHA-256's padded message. -/
theorem Fed.padded (fed : Fed hash message)
    : message ++ padding hash = Sha256.pad message := by
  have tail := fed.tail_length
  have zeros : (if hash.tail.length < 56 then 64 - hash.tail.length else 128 - hash.tail.length) - 9
      = (119 - message.length % 64) % 64 := by
    rw [fed.bytes] at tail
    split <;> omega
  unfold padding Sha256.pad
  simp only
  rw [zeros, ← length_bytes, fed.bytes]
  simp

theorem length_pad (message : List UInt8) : (Sha256.pad message).length % 64 = 0 := by
  simp only [Sha256.pad, List.length_append, List.length_cons, List.length_replicate,
    List.length_map, List.length_range]
  omega

/-- The digest of a hash that has been fed a message is the message's SHA-256. -/
theorem Fed.digest (fed : Fed hash message) (size : message.length < 2 ^ 53)
    : hash.digest = some (Sha256.hex message) := by
  have padded := fed.update (padding hash)
  rw [fed.padded] at padded
  obtain ⟨consumed, count, whole, blocks, words⟩ := padded.split
  have lengths := congrArg List.length whole
  rw [List.length_append] at lengths
  have aligned := length_pad message
  have short := padded.short
  have empty : (hash.update (padding hash)).tail = [] := List.length_eq_zero_iff.mp (by omega)
  rw [empty, List.append_nil] at whole
  rw [← whole] at words blocks
  have number : (Sha256.pad message).length / 64 = count := by omega
  rw [ArchiveSha256.digest, fed.resume size, Option.map_some, words, Sha256.hex]
  simp only [number]
  refine congrArg some ?_
  change _ = List.flatMap Sha256.hexOf _
  simp only [absorbed, Chain.numbers, numbersOf, List.flatMap_cons, List.flatMap_nil, hexOf_eq]

/-- Pieces and stops go on from a hash that has been fed a message, by induction on them. -/
theorem Fed.run (fed : Fed hash message) (feeds : List Feed)
    (size : (message ++ feeds.flatMap Feed.bytes).length < 2 ^ 53)
    : ∃ result, feeds.foldlM feedStep hash = some result
        ∧ Fed result (message ++ feeds.flatMap Feed.bytes) := by
  induction feeds generalizing hash message with
  | nil => exact ⟨hash, rfl, by simpa using fed⟩
  | cons feed rest ih =>
      have shorter : message.length < 2 ^ 53 := by
        rw [List.length_append] at size
        omega
      have next : ∃ result, feedStep hash feed = some result
          ∧ Fed result (message ++ feed.bytes) := by
        cases feed with
        | update bytes => exact ⟨_, rfl, fed.update bytes⟩
        | stop =>
            refine ⟨hash, ?_, by simpa [Feed.bytes] using fed⟩
            rw [feedStep, Json.parse_stringify, Option.bind_some]
            exact fed.resume shorter
      obtain ⟨middle, step, fed⟩ := next
      rw [List.flatMap_cons, ← List.append_assoc] at size ⊢
      obtain ⟨result, run, last⟩ := ih fed size
      refine ⟨result, ?_, last⟩
      rw [List.foldlM_cons, step]
      exact run

/-- However a message of fewer than `2 ^ 53` bytes is cut, and wherever the state is written down
and resumed, the digest is the message's SHA-256.
-/
theorem archiveSha256_digest (feeds : List Feed)
    (size : (feeds.flatMap Feed.bytes).length < 2 ^ 53)
    : (feeds.foldlM feedStep .fresh).bind ArchiveSha256.digest
        = some (Sha256.hex (feeds.flatMap Feed.bytes)) := by
  obtain ⟨result, run, fed⟩ := fed_fresh.run feeds size
  rw [List.nil_append] at fed
  rw [run, Option.bind_some]
  exact fed.digest size

/-- A stop between the first two pieces of a message of three. -/
theorem archiveSha256_digest_stopped
    : ([.update [0x61], .stop, .update [0x62], .update [0x63]].foldlM feedStep .fresh).bind
          ArchiveSha256.digest
        = some (Sha256.hex [0x61, 0x62, 0x63]) :=
  archiveSha256_digest [.update [0x61], .stop, .update [0x62], .update [0x63]] (by decide)

end PiFabric.Archive
