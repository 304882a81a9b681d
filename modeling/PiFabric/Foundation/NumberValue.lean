import Mathlib
import PiFabric.Foundation.Json

/-! The value of a number as its JSON token writes it. -/

namespace PiFabric

open JsString Json

/-- A text with an optional sign, and whether it has a minus. -/
def unsigned (text : JsString) : Bool × JsString :=
  if text.head? = some (unitOf '-') then (true, text.tail)
  else if text.head? = some (unitOf '+') then (false, text.tail)
  else (false, text)

def signed (minus : Bool) (value : ℚ) : ℚ :=
  if minus then -value else value

def exponentOf (text : JsString) : Int :=
  let (minus, digits) := unsigned (text.drop 1)
  if minus then -(natValue digits : Int) else natValue digits

/-- The value of a decimal token: its digits, scaled by its fraction and its exponent. -/
def decimalValueOf (token : JsString) : ℚ :=
  let (minus, rest) := unsigned token
  let whole := rest.takeWhile isDigit
  let rest := rest.dropWhile isDigit
  let fraction := if rest.head? = some (unitOf '.') then rest.tail.takeWhile isDigit else []
  let exponent := rest.drop (if rest.head? = some (unitOf '.') then fraction.length + 1 else 0)
  signed minus (natValue (whole ++ fraction) * (10 : ℚ) ^ (exponentOf exponent - fraction.length))

def JsNumber.value : JsNumber → ℚ
  | .int value => value
  | .decimal token => decimalValueOf token.units

example : decimalValueOf (lit "-12.50e-1") = -5 / 4 := by decide +kernel

end PiFabric

/-! JavaScript numbers as far as counters need them: the double nearest to a natural number. -/

namespace PiFabric.Double

/-- `Number.MAX_SAFE_INTEGER + 1`; every natural number up to it is a double. -/
def exactLimit : Nat := 2 ^ 53

/-- The double nearest to `n`, ties to even. -/
def ofNat (n : Nat) : Nat :=
  if n ≤ exactLimit then n
  else
    -- one unit in the last of the 53 places
    let unit := 2 ^ (Nat.log2 n - 52)
    let down := n / unit
    let rest := n % unit
    if 2 * rest < unit ∨ 2 * rest = unit ∧ down % 2 = 0 then down * unit
    else (down + 1) * unit

@[simp] theorem ofNat_of_le {n : Nat} (h : n ≤ exactLimit) : ofNat n = n := by
  simp [ofNat, h]

/-- A number above the limit is not rounded to below it. -/
theorem exactLimit_le_ofNat {n : Nat} (h : exactLimit ≤ n) : exactLimit ≤ ofNat n := by
  rcases h.eq_or_lt with rfl | above
  · simp
  · have low : ¬n ≤ exactLimit := by omega
    have nonzero : n ≠ 0 := by omega
    have large : 53 ≤ Nat.log2 n := (Nat.le_log2 nonzero).mpr h
    have down : exactLimit ≤ n / 2 ^ (Nat.log2 n - 52) * 2 ^ (Nat.log2 n - 52) := by
      have fits : 2 ^ Nat.log2 n ≤ n := Nat.log2_self_le nonzero
      have whole : 2 ^ 52 * 2 ^ (Nat.log2 n - 52) ≤ n := by
        rwa [← Nat.pow_add, show 52 + (Nat.log2 n - 52) = Nat.log2 n by omega]
      have quotient : 2 ^ 52 ≤ n / 2 ^ (Nat.log2 n - 52) :=
        (Nat.le_div_iff_mul_le (by positivity)).mpr whole
      calc exactLimit = 2 ^ 52 * 2 ^ 1 := by norm_num [exactLimit]
        _ ≤ n / 2 ^ (Nat.log2 n - 52) * 2 ^ (Nat.log2 n - 52) :=
          Nat.mul_le_mul quotient (Nat.pow_le_pow_right (by decide) (by omega))
    simp only [ofNat, if_neg low]
    split
    · exact down
    · exact down.trans (Nat.mul_le_mul_right _ (Nat.le_succ _))

/-- A number whose double is below the limit is that double. -/
theorem eq_of_ofNat_lt {n : Nat} (h : ofNat n < exactLimit) : ofNat n = n := by
  apply ofNat_of_le
  by_contra above
  exact absurd (exactLimit_le_ofNat (Nat.le_of_lt (not_le.mp above))) (not_le.mpr h)

example : ofNat (2 ^ 53 + 1) = 2 ^ 53 := by decide +kernel

end PiFabric.Double
