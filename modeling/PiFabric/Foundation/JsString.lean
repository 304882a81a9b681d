import Mathlib

/-! JavaScript strings as sequences of UTF-16 code units.
Length, equality, slicing and the default sort order of JavaScript are those of this list.
-/

namespace PiFabric

/-- A JavaScript string: its UTF-16 code units, lone surrogates included. -/
abbrev JsString := List UInt16

/-- One instance for every module that decides membership of a string. -/
instance : LawfulBEq JsString := inferInstance

namespace JsString

/-- The code units of one character: itself, or its surrogate pair. -/
def ofChar (c : Char) : JsString :=
  if c.toNat < 0x10000 then [c.toNat.toUInt16]
  else [(0xD800 + (c.toNat - 0x10000) / 0x400).toUInt16,
    (0xDC00 + (c.toNat - 0x10000) % 0x400).toUInt16]

/-- A source literal as the string JavaScript holds for it. -/
def lit (text : String) : JsString :=
  text.toList.flatMap ofChar

def isHigh (unit : UInt16) : Bool :=
  0xD800 ≤ unit && unit < 0xDC00

def isLow (unit : UInt16) : Bool :=
  0xDC00 ≤ unit && unit < 0xE000

/-- No code unit is a surrogate without its partner. -/
def WellFormed : JsString → Prop
  | [] => True
  | [unit] => isHigh unit = false ∧ isLow unit = false
  | first :: second :: rest =>
      if isHigh first then isLow second = true ∧ WellFormed rest
      else isLow first = false ∧ WellFormed (second :: rest)

/-- White space and line terminators, as `trim` strips them. -/
def isBlank (unit : UInt16) : Bool :=
  0x09 ≤ unit && unit ≤ 0x0D || unit = 0x20 || unit = 0xA0 || unit = 0x1680
    || 0x2000 ≤ unit && unit ≤ 0x200A || unit = 0x2028 || unit = 0x2029 || unit = 0x202F
    || unit = 0x205F || unit = 0x3000 || unit = 0xFEFF

/-- `text.trim()`. -/
def trim (text : JsString) : JsString :=
  ((text.dropWhile isBlank).reverse.dropWhile isBlank).reverse

/-- JavaScript's default `sort` order compares code units. -/
def le (left right : JsString) : Bool :=
  decide (left ≤ right)

/-- A unit that is no surrogate extends a well-formed string, by cases on the rest. -/
theorem WellFormed.cons {unit : UInt16} {rest : JsString} (high : isHigh unit = false)
    (low : isLow unit = false) (h : WellFormed rest)
    : WellFormed (unit :: rest) := by
  cases rest with
  | nil => exact ⟨high, low⟩
  | cons next tail => simpa [WellFormed, high, low] using h

/-- A surrogate pair extends a well-formed string. -/
theorem WellFormed.pair {first second : UInt16} {rest : JsString}
    (high : isHigh first = true) (low : isLow second = true) (h : WellFormed rest)
    : WellFormed (first :: second :: rest) := by
  simpa [WellFormed, high] using And.intro low h

/-- Well-formed strings concatenate, by induction along the pairs of the first. -/
theorem WellFormed.append {left right : JsString} (hl : WellFormed left)
    (hr : WellFormed right)
    : WellFormed (left ++ right) := by
  induction left using WellFormed.induct with
  | case1 => exact hr
  | case2 unit => exact hr.cons hl.1 hl.2
  | case3 first second rest high ih =>
      simp only [WellFormed, high, if_true] at hl
      exact (ih hl.2).pair high hl.1
  | case4 first second rest high ih =>
      have high : isHigh first = false := by simpa using high
      simp only [WellFormed, high] at hl
      exact (ih hl.2).cons high hl.1

/-- Plain ASCII units form a well-formed string, by induction over the units. -/
theorem wellFormed_of_ascii {units : JsString} (h : ∀ unit ∈ units, unit < 0x80)
    : WellFormed units := by
  induction units with
  | nil => trivial
  | cons unit rest ih =>
      have small : unit.toNat < 0x80 := h unit (by simp)
      refine (ih (fun u hu => h u (List.mem_cons_of_mem _ hu))).cons ?_ ?_
      · simp only [isHigh, Bool.and_eq_false_iff, decide_eq_false_iff_not, UInt16.le_iff_toNat_le]
        left
        have : (0xD800 : UInt16).toNat = 0xD800 := rfl
        omega
      · simp only [isLow, Bool.and_eq_false_iff, decide_eq_false_iff_not, UInt16.le_iff_toNat_le]
        left
        have : (0xDC00 : UInt16).toNat = 0xDC00 := rfl
        omega

end JsString

end PiFabric
