import PiFabric.Foundation.Json

/-! Positions of the write-ahead log: their text, two hexadecimal halves of 32 bits, and back. -/

namespace PiFabric.Records

open JsString Json

def isHexWord (word : JsString) : Bool :=
  1 ≤ word.length && word.length ≤ 8 && word.all fun unit => (hexValue unit).isSome

def hexNumber (word : JsString) : Nat :=
  word.foldl (fun number unit => number * 16 + (hexValue unit).getD 0) 0

def hexText (value : Nat) : JsString :=
  (Nat.toDigits 16 value).map fun digit => unitOf digit.toUpper

variable {value : Nat}

theorem hexValue_lt {unit : UInt16} (h : hexValue unit = some value)
    : value < 16 := by
  simp only [hexValue] at h
  split at h
  · next digit =>
      simp only [isDigit, Bool.and_eq_true, decide_eq_true_eq, UInt16.le_iff_toNat_le] at digit
      obtain rfl := Option.some.inj h
      have top : unit.toNat ≤ 57 := digit.2
      omega
  · split at h
    · next letter =>
        simp only [Bool.and_eq_true, decide_eq_true_eq, UInt16.le_iff_toNat_le] at letter
        obtain rfl := Option.some.inj h
        have top : unit.toNat ≤ 102 := letter.2
        omega
    · split at h
      · next letter =>
          simp only [Bool.and_eq_true, decide_eq_true_eq, UInt16.le_iff_toNat_le] at letter
          obtain rfl := Option.some.inj h
          have top : unit.toNat ≤ 70 := letter.2
          omega
      · cases h

/-- A word is below the power of its length, by induction over its units from the last one. -/
theorem hexNumber_lt (word : JsString) : hexNumber word < 16 ^ word.length := by
  induction word using List.reverseRecOn with
  | nil => exact Nat.one_pos
  | append_singleton word unit ih =>
      have small : (hexValue unit).getD 0 < 16 := by
        cases value : hexValue unit with
        | none => exact Nat.succ_pos 15
        | some value => exact hexValue_lt ‹_›
      have more : hexNumber (word ++ [unit]) = hexNumber word * 16 + (hexValue unit).getD 0 := by
        simp only [hexNumber, List.foldl_append, List.foldl_cons, List.foldl_nil]
      rw [more, List.length_append, List.length_singleton, pow_succ]
      omega

theorem hexNumber_lt_of_isHexWord {word : JsString} (h : isHexWord word = true)
    : hexNumber word < 2 ^ 32 := by
  simp only [isHexWord, Bool.and_eq_true, decide_eq_true_eq] at h
  calc hexNumber word
      < 16 ^ word.length := hexNumber_lt word
    _ ≤ 16 ^ 8 := Nat.pow_le_pow_right (by omega) h.1.2
    _ = 2 ^ 32 := by norm_num

theorem hexValue_digit {digit : Nat} (small : digit < 16)
    : hexValue (unitOf digit.digitChar.toUpper) = some digit := by
  revert digit
  decide

theorem hexNumber_hexText (value : Nat) : hexNumber (hexText value) = value := by
  induction value using Nat.strong_induction_on with
  | _ value ih =>
      by_cases small : value < 16
      · rw [hexText, Nat.toDigits_of_lt_base small]
        simp only [hexNumber, List.map_cons, List.map_nil, List.foldl_cons, List.foldl_nil,
          hexValue_digit small, Option.getD_some]
        omega
      · have last := ih (value / 16) (by omega)
        rw [hexText, Nat.toDigits_of_base_le (by omega) (by omega), List.map_append]
        simp only [hexNumber, hexText] at last
        simp only [hexNumber, List.foldl_append, last, List.map_cons, List.map_nil,
          List.foldl_cons, List.foldl_nil, hexValue_digit (Nat.mod_lt value (by omega)),
          Option.getD_some]
        omega

theorem hexText_digits (value : Nat)
    : (hexText value).all fun unit => (hexValue unit).isSome := by
  induction value using Nat.strong_induction_on with
  | _ value ih =>
      by_cases small : value < 16
      · rw [hexText, Nat.toDigits_of_lt_base small]
        simp [hexValue_digit small]
      · have last := ih (value / 16) (by omega)
        rw [hexText, Nat.toDigits_of_base_le (by omega) (by omega), List.map_append,
          List.all_append]
        rw [hexText] at last
        simp [last, hexValue_digit (Nat.mod_lt value (show 16 > 0 by omega))]

theorem isHexWord_hexText (small : value < 2 ^ 32)
    : isHexWord (hexText value) = true := by
  have short := (Nat.length_toDigits_le_iff (n := value) (b := 16) (k := 8) (by omega)
    (by omega)).mpr (by simpa using small)
  have some_ := Nat.length_toDigits_pos (b := 16) (n := value)
  simp only [isHexWord, Bool.and_eq_true, decide_eq_true_eq]
  refine ⟨⟨?_, ?_⟩, hexText_digits value⟩
  · rw [hexText, List.length_map]
    exact some_
  · simpa only [hexText, List.length_map] using short

def maxLsn : Nat := 2 ^ 64 - 1

def lsnToBigInt (lsn : JsString) : Except JsString Nat :=
  let high := lsn.takeWhile fun unit => unit ≠ unitOf '/'
  let low := (lsn.dropWhile fun unit => unit ≠ unitOf '/').drop 1
  if isHexWord high ∧ isHexWord low then .ok (hexNumber high <<< 32 ||| hexNumber low)
  else .error (lit "malformed LSN: " ++ quote lsn)

/-- `bigIntToLsn`; a position is never negative. -/
def bigIntToLsn (value : Nat) : Except JsString JsString :=
  if maxLsn < value then .error (lit "LSN out of range: " ++ digits value)
  else .ok (hexText (value >>> 32) ++ unitOf '/' :: hexText (value &&& 0xffffffff))

/-- What is read is a position of 64 bits. -/
theorem lsnToBigInt_le {lsn : JsString} (h : lsnToBigInt lsn = .ok value)
    : value ≤ maxLsn := by
  simp only [lsnToBigInt] at h
  split at h
  · next words =>
      obtain rfl := Except.ok.inj h
      have high := hexNumber_lt_of_isHexWord words.1
      have low := hexNumber_lt_of_isHexWord words.2
      rw [← Nat.shiftLeft_add_eq_or_of_lt low, Nat.shiftLeft_eq, maxLsn]
      omega
  · cases h

/-- No digit of a number is the slash between the halves. -/
theorem ne_slash_of_mem_hexText {unit : UInt16} (member : unit ∈ hexText value)
    : unit ≠ unitOf '/' := by
  rintro rfl
  have digit := List.all_eq_true.mp (hexText_digits value) _ member
  exact absurd digit (by decide)

/-- Every position is written, and its text is read back as the position. -/
theorem lsnToBigInt_bigIntToLsn (h : value ≤ maxLsn)
    : ∃ lsn, bigIntToLsn value = .ok lsn ∧ lsnToBigInt lsn = .ok value := by
  refine ⟨_, if_neg (by omega), ?_⟩
  have high : value >>> 32 < 2 ^ 32 := by
    rw [Nat.shiftRight_eq_div_pow]
    simp only [maxLsn] at h
    omega
  have masked : value &&& 0xffffffff = value % 2 ^ 32 := Nat.and_two_pow_sub_one_eq_mod value 32
  have low : value &&& 0xffffffff < 2 ^ 32 := by
    rw [masked]
    omega
  have before : ∀ unit ∈ hexText (value >>> 32),
      (decide (unit ≠ unitOf '/')) = true := fun unit member =>
    decide_eq_true (ne_slash_of_mem_hexText member)
  simp only [lsnToBigInt, List.takeWhile_append_of_pos before, List.dropWhile_append_of_pos before]
  rw [List.takeWhile_cons_of_neg (by simp), List.dropWhile_cons_of_neg (by simp),
    List.append_nil, List.drop_one, List.tail_cons,
    if_pos ⟨isHexWord_hexText high, isHexWord_hexText low⟩, hexNumber_hexText,
    hexNumber_hexText, ← Nat.shiftLeft_add_eq_or_of_lt low, masked, Nat.shiftLeft_eq,
    Nat.shiftRight_eq_div_pow]
  congr 1
  omega

end PiFabric.Records
