import PiFabric.Foundation.ObjectKeys
import PiFabric.State.Kernel

/-! The state file of a mesh root: its entries, the revisions it retains, its tombstones and its
clock, and the three writes. Each write is decided on one snapshot and commits as a whole.
-/

namespace PiFabric.State

open JsString
open Json (Members)

/-- `MeshStateFile`, as it was parsed. The entries, the retained revisions and the marks are
whatever the file holds; a revision table that is no object is refused by every write.
-/
structure StateFile where
  format : Json
  revisionFormat : Option Json
  entries : JsMap JsString Json
  versions : Option (JsMap JsString Json)
  tombstoneOrder : Option (List JsString)
  highWater : Option Json

def emptyState : StateFile where
  format := .number (.int 1)
  revisionFormat := some (.number (.int 2))
  entries := JsMap.empty
  versions := none
  tombstoneOrder := none
  highWater := some (.number (.int 0))

def StateFile.retained (state : StateFile) : JsMap JsString Json :=
  state.versions.getD JsMap.empty

def StateFile.order (state : StateFile) : List JsString :=
  state.tombstoneOrder.getD []

def number (value : Nat) : Json :=
  .number (.int value)

structure Slot where
  present : Bool
  version : Nat
  highWater : Nat

def agrees (retained : JsMap JsString Json) (key : JsString) (version : Nat) : Bool :=
  match retained.get? key with
  | some revision => Json.strictEqual (some revision) (some (number version))
  | none => true

def entryRevision (retained : JsMap JsString Json) (key : JsString) (entry : Json)
    : Except StateError Nat :=
  match entry with
  | .object members =>
      if Json.strictEqual (Members.get? "key" members) (some (.string key)) then
        storageRevision (Members.get? "version" members) >>= fun version =>
          if version = 0 || !agrees retained key version then .error .inconsistent
          else .ok version
      else .error .entry
  | _ => .error .entry

def checkProtocol (state : StateFile) : Except StateError Unit :=
  if state.revisionFormat.isSome
      && !Json.strictEqual state.revisionFormat (some (number 2)) then .error .protocol
  else if (Json.strictEqual (some state.format) (some (number 2))
      || Json.strictEqual state.revisionFormat (some (number 2))) && state.highWater.isNone then
    .error .missingHighWater
  else .ok ()

def readClock (state : StateFile) (retainedMaximum : Nat) : Except StateError Nat :=
  match state.highWater with
  | some recorded =>
      (storageRevision (some recorded)).map fun recorded => max recorded retainedMaximum
  | none => .ok retainedMaximum

def readVersion (state : StateFile) (key : JsString) : Except StateError Nat :=
  match state.entries.get? key with
  | some entry => entryRevision state.retained key entry
  | none =>
      match state.retained.get? key with
      | some revision => storageRevision (some revision)
      | none => .ok 0

def stateSlot (state : StateFile) (key : JsString) : Except StateError Slot := do
  let rows ← state.retained.values.mapM fun revision => storageRevision (some revision)
  let versions ← state.entries.entries.mapM fun entry =>
    entryRevision state.retained entry.1 entry.2
  let _ ← checkProtocol state
  let highWater ← readClock state ((rows ++ versions).foldl max 0)
  let version ← readVersion state key
  .ok { present := state.entries.has key, version, highWater }

def sliceLast {α : Type} (count : Nat) (items : List α) : List α :=
  if count = 0 then items else items.drop (items.length - count)

/-- The tombstones in eviction order: those in the recorded order, then the others. -/
def orderedTombstones (state : StateFile) : List JsString :=
  let recorded := (state.order.filter fun key =>
    !state.entries.has key && state.retained.has key).eraseDups
  recorded ++ (objectKeys state.retained).filter fun key =>
    !state.entries.has key && !recorded.contains key

def compactStateTombstones (maxTombstones : Nat) (state : StateFile) : StateFile :=
  let retained := sliceLast maxTombstones (orderedTombstones state)
  {
    state with
    versions := some (state.retained.filter fun key _ =>
      state.entries.has key || retained.contains key)
    tombstoneOrder := some retained
  }

def isKeyHead (unit : UInt16) : Bool :=
  isDigit unit || unitOf 'a' ≤ unit && unit ≤ unitOf 'z' || unitOf 'A' ≤ unit && unit ≤ unitOf 'Z'

def isKeyUnit (unit : UInt16) : Bool :=
  isKeyHead unit || unit = unitOf '.' || unit = unitOf '_' || unit = unitOf ':'
    || unit = unitOf '/' || unit = unitOf '-'

def unsafeSegments : List JsString :=
  [lit "__proto__", lit "prototype", lit "constructor"]

def validKey (key : JsString) : Bool :=
  (match key with
    | [] => false
    | head :: rest => isKeyHead head && rest.length ≤ 255 && rest.all isKeyUnit)
    && (key.splitOnP fun unit => unit = unitOf '/' || unit = unitOf ':').all fun segment =>
      !unsafeSegments.contains segment

def checkKey (key : JsString) : Except StateError Unit :=
  if validKey key then .ok () else .error (.invalidKey key)

structure Limits where
  maxEventBytes : Nat
  maxStateTombstones : Nat

def captureVersion : Option Json → Except StateError (Option Nat)
  | none => .ok none
  | some version => do .ok (some (← storageRevision (some version)))

def captureStoragePut (limits : Limits) (value : Option Json) (identity : Json)
    (ifVersion : Option Json) : Except StateError (Option Nat × Change) := do
  let expected ← captureVersion ifVersion
  match value with
  | none => .error .unserializable
  | some value =>
      if limits.maxEventBytes < (Json.bytes value).length then
        .error (.tooLarge limits.maxEventBytes)
      else .ok (expected, .put value identity)

def captureStorageDelete (ifVersion : Option Json) : Except StateError (Option Nat × Change) := do
  .ok (← captureVersion ifVersion, .delete)

def entryJson (key : JsString) (value : Json) (version now : Nat) (identity : Json) : Json :=
  .object [(lit "key", .string key), (lit "value", value), (lit "version", number version),
    (lit "updatedAt", number now), (lit "updatedBy", identity)]

/-- The revision of a key and the clock after a change; the envelope names its protocol. -/
def StateFile.allocate (state : StateFile) (key : JsString) (version highWater : Nat)
    : StateFile :=
  {
    state with
    format := number 1
    revisionFormat := some (number 2)
    versions := some (state.retained.set key (number version))
    highWater := some (number highWater)
  }

def StateFile.store (state : StateFile) (key : JsString) (value identity : Json)
    (version highWater now : Nat) : StateFile :=
  {
    state.allocate key version highWater with
    entries := state.entries.set key (entryJson key value version now identity)
  }

def StateFile.bury (state : StateFile) (key : JsString) (version highWater : Nat) : StateFile :=
  { state.allocate key version highWater with entries := state.entries.delete key }

def put (limits : Limits) (key : JsString) (value : Option Json) (identity : Json)
    (ifVersion : Option Json) (now : Nat) (state : StateFile)
    : Except StateError (Json × Nat × StateFile) := do
  checkKey key
  let (expected, change) ← captureStoragePut limits value identity ifVersion
  let slot ← stateSlot state key
  match ← transition key expected change slot.present slot.version slot.highWater with
  | .put value identity version highWater =>
      let next := state.store key value identity version highWater now
      .ok (entryJson key value version now identity, version,
        compactStateTombstones limits.maxStateTombstones
          { next with tombstoneOrder := some (state.order.filter (· ≠ key)) })
  | _ => .error .plan

/-- `delete`: the version it consumed and the file, or nothing where the key is absent. -/
def delete (limits : Limits) (key : JsString) (ifVersion : Option Json) (state : StateFile)
    : Except StateError (Option (Nat × StateFile)) := do
  checkKey key
  let (expected, change) ← captureStorageDelete ifVersion
  let slot ← stateSlot state key
  match ← transition key expected change slot.present slot.version slot.highWater with
  | .unchanged => .ok none
  | .delete version highWater =>
      let next := state.bury key version highWater
      .ok (some (version, compactStateTombstones limits.maxStateTombstones
        { next with tombstoneOrder := some (state.order.filter (· ≠ key) ++ [key]) }))
  | .put .. => .error .plan

inductive Policy where
  | skip
  | abort

/-- `onConflict`: a policy, or a function that is asked with the entry; the default is `abort`. -/
inductive OnConflict where
  | fixed (policy : Policy)
  | ask (policy : Option Json → Except StateError Policy)

def OnConflict.decide (existing : Except StateError (Option Json))
    : OnConflict → Except StateError Policy
  | fixed policy => .ok policy
  | ask policy => do policy (← existing)

/-- The keys under which an object without such an entry still has an inherited function. -/
def inheritedKeys : List JsString :=
  [lit "hasOwnProperty", lit "isPrototypeOf", lit "propertyIsEnumerable", lit "toLocaleString",
    lit "toString", lit "valueOf"]

def existingEntry (state : StateFile) (key : JsString) : Except StateError (Option Json) :=
  match state.entries.get? key with
  | some entry => .ok (some entry)
  | none => if inheritedKeys.contains key then .error .unserializable else .ok none

inductive Payload where
  | given (value : Option Json)
  | computed (value : Nat → Except StateError (Option Json))

def Payload.eval (now : Nat) : Payload → Except StateError (Option Json)
  | given value => .ok value
  | computed value => value now

/-- `MeshBatchOperation`. A delete's condition reads the entries of the batch as they are by then.
-/
inductive BatchOp where
  | put (key : JsString) (value : Payload) (identity : Json) (ifVersion : Option Json)
      (onConflict : OnConflict)
  | delete (key : JsString) (ifVersion : Option Json) (onConflict : OnConflict)
      (condition : Option ((JsString → Option Json) → Except StateError Bool))

namespace BatchOp

def key : BatchOp → JsString
  | put key .. => key
  | delete key .. => key

def ifVersion : BatchOp → Option Json
  | put _ _ _ ifVersion _ => ifVersion
  | delete _ ifVersion .. => ifVersion

def onConflict : BatchOp → OnConflict
  | put _ _ _ _ onConflict => onConflict
  | delete _ _ onConflict _ => onConflict

def allowed (state : StateFile) : BatchOp → Except StateError Bool
  | put .. => .ok true
  | delete _ _ _ none => .ok true
  | delete _ _ _ (some condition) => condition state.entries.get?

def capture (limits : Limits) (now : Nat) : BatchOp → Except StateError (Option Nat × Change)
  | put _ value identity ifVersion _ => do
      captureStoragePut limits (← value.eval now) identity ifVersion
  | delete _ ifVersion _ _ => captureStorageDelete ifVersion

end BatchOp

structure BatchResult where
  key : JsString
  applied : Bool
  version : Nat

/-- The private snapshot of a batch, with its set of tombstones. -/
structure Working where
  state : StateFile
  tombstones : List JsString

def applyOp (limits : Limits) (now : Nat) (op : BatchOp) (working : Working)
    : Except StateError (BatchResult × Working) := do
  let slot ← stateSlot working.state op.key
  let left : BatchResult := { key := op.key, applied := false, version := slot.version }
  if ← op.allowed working.state then
    match op.ifVersion.filter fun version =>
        !Json.strictEqual (some version) (some (number slot.version)) with
    | some expected =>
        match ← op.onConflict.decide (existingEntry working.state op.key) with
        | .abort => .error (.batchConflict op.key expected slot.version)
        | .skip => .ok (left, working)
    | none => do
        let (expected, change) ← op.capture limits now
        match ← transition op.key expected change slot.present slot.version slot.highWater with
        | .unchanged => .ok (left, working)
        | .delete version highWater =>
            .ok ({ key := op.key, applied := true, version }, {
              state := working.state.bury op.key version highWater
              tombstones := working.tombstones.filter (· ≠ op.key) ++ [op.key]
            })
        | .put value identity version highWater =>
            .ok ({ key := op.key, applied := true, version }, {
              state := working.state.store op.key value identity version highWater now
              tombstones := working.tombstones.filter (· ≠ op.key)
            })
  else .ok (left, working)

def applyOps (limits : Limits) (now : Nat) : List BatchOp → Working
    → Except StateError (List BatchResult × Working)
  | [], working => .ok ([], working)
  | op :: rest, working => do
      let (result, next) ← applyOp limits now op working
      let (results, last) ← applyOps limits now rest next
      .ok (result :: results, last)

/-- `writeBatch` on a snapshot: its operations, its results, and the file where any of them
applied. The operations of `prepare` are read off the snapshot and follow the caller's.
-/
def writeBatch (limits : Limits) (now : Nat) (callerOps : List BatchOp)
    (prepare : StateFile → Except StateError (List BatchOp)) (state : StateFile)
    : Except StateError (List BatchOp × List BatchResult × Option StateFile) := do
  callerOps.forM fun op => checkKey op.key
  let ops := callerOps ++ (← prepare state)
  ops.forM fun op => checkKey op.key
  let (results, last) ← applyOps limits now ops { state, tombstones := state.order.eraseDups }
  if results.any BatchResult.applied then
    .ok (ops, results, some (compactStateTombstones limits.maxStateTombstones
      { last.state with tombstoneOrder := some last.tombstones }))
  else .ok (ops, results, none)

end PiFabric.State
