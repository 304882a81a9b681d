import PiFabric.Foundation.Literals
import PiFabric.Foundation.Settling
import PiFabric.Foundation.TextBytes

/-! The two numbers that a cache value records of its own JSON: its length in bytes, and that
length over the length of the session source.
-/

namespace PiFabric.Memory

open JsString Json

/-- The digits of `value / 10 ^ places` after its point, up to the last one that is not zero. -/
def fractionDigits : Nat → Nat → JsString
  | 0, _ => []
  | places + 1, value =>
      if value = 0 then []
      else Json.digits (value / 10 ^ places) ++ fractionDigits places (value % 10 ^ places)

/-- The millionths of `bytes / size` as `toFixed(6)` rounds them, ties upwards. -/
def millionths (bytes size : Nat) : Nat :=
  (2 * bytes * 10 ^ 6 + size) / (2 * size)

theorem all_isDigit_fractionDigits (places value : Nat)
    : (fractionDigits places value).all isDigit = true := by
  induction places generalizing value with
  | zero => rfl
  | succ places ih =>
    rw [fractionDigits]
    split
    · rfl
    · rw [List.all_append, all_isDigit_digits, ih]
      rfl

theorem fractionDigits_ne_nil {places value : Nat} (pos : 0 < places) (some_ : value ≠ 0)
    : fractionDigits places value ≠ [] := by
  obtain ⟨before, rfl⟩ := Nat.exists_eq_succ_of_ne_zero (Nat.ne_of_gt pos)
  rw [fractionDigits, if_neg some_]
  have digit : Json.digits (value / 10 ^ before) ≠ [] := by
    intro none_left
    have shaped := isDigits_digits (value / 10 ^ before)
    rw [none_left] at shaped
    cases shaped
  exact List.append_ne_nil_of_left_ne_nil digit _

theorem isDecimalToken_fraction (whole : Nat) {fraction : JsString}
    (digits_ : fraction.all isDigit = true) (some_ : fraction ≠ [])
    : isDecimalToken (Json.digits whole ++ unitOf '.' :: fraction) = true := by
  have stop : isDigit (unitOf '.') = false := by decide
  have all : ∀ unit ∈ Json.digits whole, isDigit unit = true :=
    List.all_eq_true.mp (all_isDigit_digits whole)
  have some_digit : Json.digits whole ≠ [] := by
    intro none_left
    have shaped := isDigits_digits whole
    rw [none_left] at shaped
    cases shaped
  have point : (Json.digits whole ++ unitOf '.' :: fraction).all isDigit = false := by
    rw [List.all_append, List.all_cons, stop, Bool.false_and, Bool.and_false]
  obtain ⟨first, rest, units⟩ := List.exists_cons_of_ne_nil some_digit
  have firstDigit : isDigit first = true := all first (by rw [units]; exact List.mem_cons_self)
  have unsigned_ : first ≠ unitOf '-' := ne_minus_of_isDigit firstDigit
  have taken : (Json.digits whole ++ unitOf '.' :: fraction).takeWhile isDigit
      = Json.digits whole := by
    rw [List.takeWhile_append_of_pos all, List.takeWhile_cons_of_neg (by simp [stop]),
      List.append_nil]
  have dropped : (Json.digits whole ++ unitOf '.' :: fraction).dropWhile isDigit
      = unitOf '.' :: fraction := by
    rw [List.dropWhile_append_of_pos all, List.dropWhile_cons_of_neg (by simp [stop])]
  have fractional : isFraction (unitOf '.' :: fraction) = true := by
    have whole_ : ∀ unit ∈ fraction, isDigit unit = true := List.all_eq_true.mp digits_
    rw [isFraction, if_pos rfl, List.takeWhile_eq_self_iff.mpr whole_,
      List.dropWhile_eq_nil_iff.mpr whole_]
    simp [some_, isExponent]
  have units_ : (Json.digits whole ++ unitOf '.' :: fraction).all isNumberUnit = true := by
    rw [List.all_eq_true]
    intro unit member
    rcases List.mem_append.mp member with whole_ | later
    · exact isNumberUnit_of_isDigit (all unit whole_)
    · rcases List.mem_cons.mp later with rfl | inside
      · decide
      · exact isNumberUnit_of_isDigit (List.all_eq_true.mp digits_ unit inside)
  have whole_ : isIntegerToken (Json.digits whole ++ unitOf '.' :: fraction) = false := by
    rw [units, List.cons_append, isIntegerToken, if_neg unsigned_]
    rw [units, List.cons_append, List.all_cons, firstDigit, Bool.true_and] at point
    have longer : rest ++ unitOf '.' :: fraction ≠ [] := by simp
    rw [isDigits, point, Bool.and_false]
    exact longer
  have head : (Json.digits whole ++ unitOf '.' :: fraction).head? ≠ some (unitOf '-') := by
    rw [units, List.cons_append, List.head?_cons]
    exact fun minus => unsigned_ (Option.some.inj minus)
  rw [isDecimalToken, units_, whole_]
  simp only [if_neg head, taken, dropped, fractional, isDigits_digits]
  rfl

def ratio (bytes size : Nat) : JsNumber :=
  if some_ : millionths bytes size % 10 ^ 6 = 0 then .int (millionths bytes size / 10 ^ 6 : Nat)
  else .decimal {
    units := Json.digits (millionths bytes size / 10 ^ 6)
      ++ unitOf '.' :: fractionDigits 6 (millionths bytes size % 10 ^ 6)
    shaped := isDecimalToken_fraction _ (all_isDigit_fractionDigits _ _)
      (fractionDigits_ne_nil (by decide) some_)
  }

structure CacheMetrics where
  cacheBytes : Nat
  cacheSourceRatio : JsNumber
  deriving DecidableEq

def CacheMetrics.zero : CacheMetrics where
  cacheBytes := 0
  cacheSourceRatio := .int 0

/-- A value that is cached: the length of its source, and its properties before and after the
metrics.
-/
class CacheRecord (β : Type) where
  size : β → Nat
  front : β → List (String × Option Json)
  back : β → List (String × Option Json)

variable {β : Type} [CacheRecord β]

open CacheRecord

structure Cached (β : Type) where
  content : β
  metrics : CacheMetrics

def CacheMetrics.properties (metrics : CacheMetrics) : List (String × Option Json) :=
  [("cacheBytes", some (.number (.int metrics.cacheBytes))),
    ("cacheSourceRatio", some (.number metrics.cacheSourceRatio))]

def Cached.properties (value : Cached β) : List (String × Option Json) :=
  front value.content ++ value.metrics.properties ++ back value.content

def Cached.json (value : Cached β) : Json :=
  Json.literal value.properties

def recorded (content : β) (bytes : Nat) : CacheMetrics where
  cacheBytes := bytes
  cacheSourceRatio := if size content = 0 then .int 0 else ratio bytes (size content)

def metricsLoop (content : β) : Nat → CacheMetrics → Option Nat → CacheMetrics
  | 0, metrics, _ => metrics
  | rounds + 1, metrics, previous =>
      let bytes := serializedBytes (Cached.mk content metrics).json
      if previous = some bytes then recorded content bytes
      else metricsLoop content rounds (recorded content bytes) (some bytes)

def applyCacheMetrics (value : Cached β) : Cached β :=
  let looped := metricsLoop value.content 5 value.metrics none
  { value with
    metrics := recorded value.content (serializedBytes (Cached.mk value.content looped).json) }

/-- The length of the value's JSON once it records the length `bytes`. -/
def rewrittenBytes (content : β) (bytes : Nat) : Nat :=
  serializedBytes (Cached.mk content (recorded content bytes)).json

def fixedBytes (content : β) : Nat :=
  1 + ((front content ++ back content).map propertyCost).sum
    + literalLength (lit "cacheBytes") + literalLength (lit "cacheSourceRatio") + 8

/-- The length of a JSON with `fixed` bytes beside the numbers of its metrics, once these record the
length `bytes` of a source of `size` bytes.
-/
def rewrittenLength (fixed size bytes : Nat) : Nat :=
  fixed + Utf8.byteLength (Json.digits bytes)
    + Utf8.byteLength (numberToken (if size = 0 then .int 0 else ratio bytes size))

theorem serializedBytes_cached (value : Cached β)
    : serializedBytes value.json = fixedBytes value.content
        + Utf8.byteLength (Json.digits value.metrics.cacheBytes)
        + Utf8.byteLength (numberToken value.metrics.cacheSourceRatio) := by
  have some_ : ∃ property ∈ value.properties, property.2.isSome = true := by
    refine ⟨("cacheBytes", some (.number (.int value.metrics.cacheBytes))), ?_, rfl⟩
    exact List.mem_append_left _ (List.mem_append_right _ (.head _))
  have metrics : (value.metrics.properties.map propertyCost).sum
      = literalLength (lit "cacheBytes") + 4
          + Utf8.byteLength (Json.digits value.metrics.cacheBytes)
        + (literalLength (lit "cacheSourceRatio") + 4
          + Utf8.byteLength (numberToken value.metrics.cacheSourceRatio)) := by
    have number (value : JsNumber)
        : serializedBytes (.number value) = Utf8.byteLength (numberToken value) := by
      rw [serializedBytes, stringify]
    rw [CacheMetrics.properties, List.map_cons, List.map_cons, List.map_nil, List.sum_cons,
      List.sum_cons, List.sum_nil, Nat.add_zero]
    simp only [propertyCost, memberCost, number]
    rfl
  rw [Cached.json, serializedBytes_literal some_, Cached.properties, List.map_append,
    List.map_append, List.sum_append, List.sum_append, metrics, fixedBytes, List.map_append,
    List.sum_append]
  omega

/-- Only the fixed part and the length of the source matter to the next length. -/
theorem rewrittenBytes_eq (content : β)
    : rewrittenBytes content = rewrittenLength (fixedBytes content) (size content) := by
  funext bytes
  exact serializedBytes_cached _

/-- From the length of the value as it is, five rewritings reach a length that rewriting keeps. It
is a matter of three numbers: the fixed part, the length of the source and the length at first.
-/
def MetricsSettle (value : Cached β) : Prop :=
  Settles (rewrittenLength (fixedBytes value.content) (size value.content)) 5
    (serializedBytes value.json)

instance (value : Cached β) : Decidable (MetricsSettle value) :=
  inferInstanceAs (Decidable (Settles _ _ _))

/-- A loop that ends early has written the length that all its rounds would write, by induction on
the rounds.
-/
theorem metricsLoop_eq {content : β} (rounds : Nat) {metrics : CacheMetrics} {previous : Option Nat}
    (before : ∀ earlier ∈ previous, metrics = recorded content earlier)
    : metricsLoop content (rounds + 1) metrics previous
      = recorded content
        ((rewrittenBytes content)^[rounds] (serializedBytes (Cached.mk content metrics).json)) := by
  induction rounds generalizing metrics previous with
  | zero =>
    rw [metricsLoop]
    split <;> rfl
  | succ rounds ih =>
    rw [metricsLoop]
    split
    · rename_i same
      have written
          : metrics = recorded content (serializedBytes (Cached.mk content metrics).json) :=
        before _ same
      have fixed : rewrittenBytes content (serializedBytes (Cached.mk content metrics).json)
          = serializedBytes (Cached.mk content metrics).json := by
        rw [rewrittenBytes, ← written]
      rw [Function.iterate_fixed fixed]
    · rw [ih fun earlier known => by rw [Option.mem_some_iff.mp known],
        Function.iterate_succ_apply]
      rfl

/-- The metrics record what five rewritings of the length give. -/
theorem applyCacheMetrics_eq (value : Cached β)
    : applyCacheMetrics value = {
        content := value.content
        metrics := recorded value.content
          ((rewrittenBytes value.content)^[5] (serializedBytes value.json))
      } := by
  have looped : metricsLoop value.content 5 value.metrics none
      = recorded value.content
        ((rewrittenBytes value.content)^[4] (serializedBytes value.json)) :=
    metricsLoop_eq 4 fun earlier known => by cases known
  rw [applyCacheMetrics, looped, Function.iterate_succ_apply']
  rfl

theorem cacheBytes_applyCacheMetrics (value : Cached β)
    : (applyCacheMetrics value).metrics.cacheBytes
      = (rewrittenLength (fixedBytes value.content) (size value.content))^[5]
        (serializedBytes value.json) := by
  rw [applyCacheMetrics_eq, ← rewrittenBytes_eq]
  rfl

theorem serializedBytes_applyCacheMetrics (value : Cached β)
    : serializedBytes (applyCacheMetrics value).json
      = (rewrittenLength (fixedBytes value.content) (size value.content))^[6]
        (serializedBytes value.json) := by
  rw [applyCacheMetrics_eq, ← rewrittenBytes_eq, Function.iterate_succ_apply']
  rfl

/-- The length that a value records is the length of its JSON if and only if it settles. -/
theorem cacheBytes_eq_iff (value : Cached β)
    : (applyCacheMetrics value).metrics.cacheBytes = serializedBytes (applyCacheMetrics value).json
      ↔ MetricsSettle value := by
  rw [cacheBytes_applyCacheMetrics, serializedBytes_applyCacheMetrics, MetricsSettle,
    settles_iff]
  exact eq_comm

end PiFabric.Memory
