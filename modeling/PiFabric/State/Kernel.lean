import PiFabric.Foundation.JsonObject

/-! The storage kernel: what a put or a delete of one key may do, decided on revisions that are
carried in two limbs, and the host's view of it on plain numbers.
-/

namespace PiFabric.State

open JsString

def radix : Nat := 4294967296

def maxHigh : Nat := 2097151

def maxLow : Nat := 4294967295

def maxSafeInteger : Nat := 9007199254740991

structure Revision where
  high : Nat
  low : Nat
  deriving DecidableEq

def encodeRevision (value : Nat) : Revision where
  high := value / radix
  low := value % radix

@[simp] theorem encodeRevision_high (value : Nat)
    : (encodeRevision value).high = value / radix := rfl

@[simp] theorem encodeRevision_low (value : Nat)
    : (encodeRevision value).low = value % radix := rfl

/-- `decodeRevision`, unless a limb is out of range. -/
def decodeRevision (revision : Revision) : Option Nat :=
  if revision.high ≤ maxHigh ∧ revision.low < radix then
    some (revision.high * radix + revision.low)
  else none

def Revision.advances (revision : Revision) : Bool :=
  revision.high ≤ maxHigh && revision.low ≤ maxLow
    && (revision.high < maxHigh || revision.low < maxLow)

def Revision.next (revision : Revision) : Revision :=
  if revision.low = maxLow then { high := revision.high + 1, low := 0 }
  else { high := revision.high, low := revision.low + 1 }

theorem encodeRevision_inj {left right : Nat}
    : encodeRevision left = encodeRevision right ↔ left = right := by
  constructor
  · intro same
    have high : left / radix = right / radix := congrArg Revision.high same
    have low : left % radix = right % radix := congrArg Revision.low same
    calc left = radix * (left / radix) + left % radix := (Nat.div_add_mod left radix).symm
      _ = radix * (right / radix) + right % radix := by rw [high, low]
      _ = right := Nat.div_add_mod right radix
  · exact congrArg encodeRevision

/-- A number has a successor exactly below the last safe integer. -/
theorem advances_encodeRevision {value : Nat}
    : (encodeRevision value).advances = true ↔ value < maxSafeInteger := by
  simp only [Revision.advances, Bool.and_eq_true, Bool.or_eq_true, decide_eq_true_eq]
  rw [encodeRevision_high, encodeRevision_low]
  simp only [radix, maxHigh, maxLow, maxSafeInteger]
  omega

theorem decodeRevision_mk {high low : Nat} (fits : high ≤ maxHigh ∧ low < radix)
    : decodeRevision { high, low } = some (high * radix + low) :=
  if_pos fits

/-- The kernel's successor is the next number. -/
theorem decodeRevision_next {value : Nat} (advances : value < maxSafeInteger)
    : decodeRevision (encodeRevision value).next = some (value + 1) := by
  simp only [maxSafeInteger] at advances
  by_cases carry : value % radix = maxLow
  · have next : (encodeRevision value).next = { high := value / radix + 1, low := 0 } :=
      if_pos carry
    simp only [radix, maxLow] at carry
    rw [next, decodeRevision_mk (by simp only [radix, maxHigh]; omega), Option.some.injEq]
    simp only [radix]
    omega
  · have next : (encodeRevision value).next
        = { high := value / radix, low := value % radix + 1 } :=
      if_neg carry
    simp only [radix, maxLow] at carry
    rw [next, decodeRevision_mk (by simp only [radix, maxHigh]; omega), Option.some.injEq]
    simp only [radix]
    omega

/-- `StorageChange`; a put carries a value and the identity that writes it. -/
inductive Change where
  | put (value identity : Json)
  | delete

structure KernelSlot where
  present : Bool
  version : Revision
  highWater : Revision

inductive Plan where
  | conflict
  | exhausted
  | unchanged
  | putNext (value identity : Json) (version highWater : Revision)
  | deleteNext (version highWater : Revision)

/-- `storageTransition`: a present key takes its own successor, an absent one the successor of
the clock, and either advances the clock.
-/
def storageTransition (expected : Option Revision) (change : Change) (slot : KernelSlot) : Plan :=
  if expected.all (· = slot.version) then
    match change with
    | .put value identity =>
        let base := if slot.present then slot.version else slot.highWater
        if base.advances && slot.highWater.advances then
          .putNext value identity base.next slot.highWater.next
        else .exhausted
    | .delete =>
        if slot.present then
          if slot.version.advances && slot.highWater.advances then
            .deleteNext slot.version.next slot.highWater.next
          else .exhausted
        else .unchanged
  else .conflict

inductive StateError where
  | revision
  | clockBehind
  | limbs
  | conflict (key : JsString) (expected : Nat) (found : Nat)
  | batchConflict (key : JsString) (expected : Json) (found : Nat)
  | exhausted (key : JsString)
  | plan
  | entry
  | inconsistent
  | protocol
  | missingHighWater
  | invalidKey (key : JsString)
  | unserializable
  | tooLarge (bytes : Nat)
  /-- A callback of the caller threw. -/
  | thrown (message : JsString)

def StateError.message : StateError → JsString
  | revision => lit "Invalid Fabric mesh revision: expected a nonnegative safe integer"
  | clockBehind => lit "Inconsistent Fabric mesh high-water revision"
  | limbs => lit "Invalid verified storage revision limbs"
  | conflict key expected found =>
      lit "Mesh compare-and-swap failed for " ++ key ++ lit ": expected version "
        ++ Json.digits expected ++ lit ", found " ++ Json.digits found
  | batchConflict key expected found =>
      lit "Mesh compare-and-swap failed for " ++ key ++ lit ": expected version "
        ++ Json.stringify expected ++ lit ", found " ++ Json.digits found
  | exhausted key => lit "Fabric mesh revision exhausted for " ++ key
  | plan => lit "Invalid verified storage plan"
  | entry => lit "Invalid Fabric mesh state entry"
  | inconsistent => lit "Inconsistent Fabric mesh revision"
  | protocol => lit "Unsupported Fabric mesh revision protocol"
  | missingHighWater => lit "Missing Fabric mesh high-water revision"
  | invalidKey name => lit "Invalid Fabric mesh key: " ++ name
  | unserializable => lit "Mesh values must be JSON-serializable"
  | tooLarge bytes => lit "Mesh state value exceeds " ++ Json.digits bytes ++ lit " bytes"
  | thrown message => message

def storageRevision : Option Json → Except StateError Nat
  | some (.number (.int value)) =>
      if 0 ≤ value ∧ value ≤ maxSafeInteger then .ok value.toNat else .error .revision
  | _ => .error .revision

inductive Transition where
  | put (value identity : Json) (version highWater : Nat)
  | delete (version highWater : Nat)
  | unchanged

def decoded (revision : Revision) : Except StateError Nat :=
  match decodeRevision revision with
  | some value => .ok value
  | none => .error .limbs

def transition (key : JsString) (expected : Option Nat) (change : Change) (present : Bool)
    (actual clock : Nat) : Except StateError Transition :=
  if clock < actual then .error .clockBehind
  else
    let slot : KernelSlot := {
      present
      version := encodeRevision actual
      highWater := encodeRevision clock
    }
    match storageTransition (expected.map encodeRevision) change slot with
    | .conflict => .error (.conflict key (expected.getD 0) actual)
    | .exhausted => .error (.exhausted key)
    | .unchanged => .ok .unchanged
    | .putNext value identity version highWater => do
        .ok (.put value identity (← decoded version) (← decoded highWater))
    | .deleteNext version highWater => do
        .ok (.delete (← decoded version) (← decoded highWater))

/-- What a transition does on numbers: the limbs, their carries and their bounds are gone. -/
theorem transition_eq (key : JsString) (expected : Option Nat) (change : Change)
    (present : Bool) (actual clock : Nat)
    : transition key expected change present actual clock
      = if clock < actual then .error .clockBehind
        else if expected.all (· = actual) then
          match change with
          | .put value identity =>
              let base := if present then actual else clock
              if clock < maxSafeInteger then .ok (.put value identity (base + 1) (clock + 1))
              else .error (.exhausted key)
          | .delete =>
              if present then
                if clock < maxSafeInteger then .ok (.delete (actual + 1) (clock + 1))
                else .error (.exhausted key)
              else .ok .unchanged
        else .error (.conflict key (expected.getD 0) actual) := by
  unfold transition
  by_cases behind : clock < actual
  · rw [if_pos behind, if_pos behind]
  rw [if_neg behind, if_neg behind]
  have matching : (expected.map encodeRevision).all (· = encodeRevision actual)
      = expected.all (· = actual) := by
    cases expected <;> simp [encodeRevision_inj]
  simp only [storageTransition, matching]
  by_cases expects : expected.all (· = actual) = true
  swap
  · simp [expects]
  simp only [expects, if_true]
  have advances : (encodeRevision clock).advances = decide (clock < maxSafeInteger) := by
    rw [Bool.eq_iff_iff, advances_encodeRevision, decide_eq_true_eq]
  have below (room : clock < maxSafeInteger) : (encodeRevision actual).advances = true :=
    advances_encodeRevision.mpr (by omega)
  cases change with
  | put value identity =>
      by_cases room : clock < maxSafeInteger
      · have smaller : actual < maxSafeInteger := by omega
        cases present <;>
          simp [advances, room, below room, decoded, decodeRevision_next, smaller, bind,
            Except.bind]
      · cases present <;> simp [advances, room]
  | delete =>
      cases present with
      | false => rfl
      | true =>
          by_cases room : clock < maxSafeInteger
          · have smaller : actual < maxSafeInteger := by omega
            simp [advances, room, below room, decoded, decodeRevision_next, smaller, bind,
              Except.bind]
          · simp [advances, room]

end PiFabric.State
