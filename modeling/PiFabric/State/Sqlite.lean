import PiFabric.State.File

/-! The SQLite store of a mesh root: a row for each entry, an ordinal for each tombstone, and
running counters. Each write is one transaction, and a transaction that throws is rolled back.
-/

namespace PiFabric.State.Sqlite

open JsString

/-- A row of `kv`; the value and the identity are JSON texts. -/
structure KvRow where
  value : List UInt8
  version : Nat
  updatedAt : Nat
  updatedBy : List UInt8
  bytes : Nat

/-- A row of `tombstones`. -/
structure Tombstone where
  version : Nat
  ord : Nat

/-- The tables, and the counters of `meta`. -/
structure Database where
  kv : JsMap JsString KvRow
  tombstones : JsMap JsString Tombstone
  highWater : Nat
  commit : Nat
  stateBytes : Int
  tombstoneOrd : Nat

def emptyDatabase : Database where
  kv := JsMap.empty
  tombstones := JsMap.empty
  highWater := 0
  commit := 0
  stateBytes := 0
  tombstoneOrd := 0

def entryBytes (key : JsString) (value updatedBy : List UInt8) : Nat :=
  value.length + updatedBy.length + 3 * (Utf8.encode key).length + 96

def tombstoneBytes (key : JsString) : Nat :=
  2 * (Utf8.encode key).length + 32

def KvRow.of (key : JsString) (value identity : Json) (version now : Nat) : KvRow where
  value := Json.bytes value
  version
  updatedAt := now
  updatedBy := Json.bytes identity
  bytes := entryBytes key (Json.bytes value) (Json.bytes identity)

def parsed (text : List UInt8) : Json :=
  (Json.ofBytes text).getD .null

def toEntry (key : JsString) (row : KvRow) : Json :=
  entryJson key (parsed row.value) row.version row.updatedAt (parsed row.updatedBy)

def Database.entry (db : Database) (key : JsString) : Option Json :=
  (db.kv.get? key).map (toEntry key)

def Database.tombAll (db : Database) : List (JsString × Tombstone) :=
  db.tombstones.entries.mergeSort fun a b => a.2.ord ≤ b.2.ord

/-- `tombCutoff`: the ordinal at an offset below the last one. -/
def Database.tombCutoff (db : Database) (offset : Nat) : Option Nat :=
  ((db.tombstones.entries.map fun row => row.2.ord).mergeSort fun a b => b ≤ a)[offset]?

structure SqlSlot where
  present : Bool
  version : Nat
  bytes : Nat
  tombstone : Bool

def Database.slot (db : Database) (key : JsString) : SqlSlot :=
  match db.kv.get? key with
  | some row => { present := true, version := row.version, bytes := row.bytes, tombstone := false }
  | none =>
      match db.tombstones.get? key with
      | some row => { present := false, version := row.version, bytes := 0, tombstone := true }
      | none => { present := false, version := 0, bytes := 0, tombstone := false }

structure StateChange where
  key : JsString
  version : Nat
  deleted : Bool

/-- An open transaction: the tables and counters as its statements have left them. -/
structure Tx where
  db : Database
  deleted : Bool
  changes : List StateChange

def begin_ (db : Database) : Tx where
  db
  deleted := false
  changes := []

def applyPut (tx : Tx) (slot : SqlSlot) (key : JsString) (value identity : Json)
    (version highWater now : Nat) : Tx :=
  let row := KvRow.of key value identity version now
  {
    tx with
    db := {
      tx.db with
      kv := tx.db.kv.set key row
      tombstones := if slot.tombstone then tx.db.tombstones.delete key else tx.db.tombstones
      highWater
      stateBytes := tx.db.stateBytes - (if slot.tombstone then tombstoneBytes key else 0)
        + (row.bytes - slot.bytes)
    }
    changes := tx.changes ++ [{ key, version, deleted := false }]
  }

def applyDelete (tx : Tx) (slot : SqlSlot) (key : JsString) (version highWater : Nat) : Tx :=
  {
    db := {
      tx.db with
      kv := tx.db.kv.delete key
      tombstones := tx.db.tombstones.set key { version, ord := tx.db.tombstoneOrd + 1 }
      highWater
      stateBytes := tx.db.stateBytes
        + (tombstoneBytes key - slot.bytes - (if slot.tombstone then tombstoneBytes key else 0))
      tombstoneOrd := tx.db.tombstoneOrd + 1
    }
    deleted := true
    changes := tx.changes ++ [{ key, version, deleted := true }]
  }

def evict (db : Database) (cutoff : Nat) : Database :=
  {
    db with
    tombstones := db.tombstones.filter fun _ row => !(row.ord ≤ cutoff)
    stateBytes := db.stateBytes - ((db.tombstones.entries.filter fun row => row.2.ord ≤ cutoff).map
      fun row => (tombstoneBytes row.1 : Int)).sum
  }

def finish (maxTombstones : Nat) (tx : Tx) : Database :=
  let db :=
    if tx.deleted ∧ maxTombstones < tx.db.tombstones.size then
      match tx.db.tombCutoff maxTombstones with
      | some cutoff => evict tx.db cutoff
      | none => tx.db
    else tx.db
  { db with commit := db.commit + 1 }

/-- `#run` of a body that returned: a transaction without changes commits nothing. -/
def commit (maxTombstones : Nat) (tx : Tx) : Database :=
  if tx.changes = [] then tx.db else finish maxTombstones tx

def put (limits : Limits) (key : JsString) (value : Option Json) (identity : Json)
    (ifVersion : Option Json) (now : Nat) (db : Database) : Except StateError (Json × Database) := do
  checkKey key
  let (expected, change) ← captureStoragePut limits value identity ifVersion
  let slot := db.slot key
  match ← transition key expected change slot.present slot.version db.highWater with
  | .put value identity version highWater =>
      let tx := applyPut (begin_ db) slot key value identity version highWater now
      .ok (entryJson key value version now identity, commit limits.maxStateTombstones tx)
  | _ => .error .plan

def delete (limits : Limits) (key : JsString) (ifVersion : Option Json) (db : Database)
    : Except StateError (Option Nat × Database) := do
  checkKey key
  let (expected, change) ← captureStorageDelete ifVersion
  let slot := db.slot key
  match ← transition key expected change slot.present slot.version db.highWater with
  | .unchanged => .ok (none, commit limits.maxStateTombstones (begin_ db))
  | .delete version highWater =>
      let tx := applyDelete (begin_ db) slot key version highWater
      .ok (some version, commit limits.maxStateTombstones tx)
  | .put .. => .error .plan

def allowed (db : Database) : BatchOp → Except StateError Bool
  | .put .. => .ok true
  | .delete _ _ _ none => .ok true
  | .delete _ _ _ (some condition) => condition db.entry

def applyOp (limits : Limits) (now : Nat) (op : BatchOp) (tx : Tx)
    : Except StateError (BatchResult × Tx) := do
  let slot := tx.db.slot op.key
  let left : BatchResult := { key := op.key, applied := false, version := slot.version }
  if ← allowed tx.db op then
    match op.ifVersion.filter fun version =>
        !Json.strictEqual (some version) (some (number slot.version)) with
    | some expected =>
        match ← op.onConflict.decide
            (.ok (if slot.present then tx.db.entry op.key else none)) with
        | .abort => .error (.batchConflict op.key expected slot.version)
        | .skip => .ok (left, tx)
    | none => do
        let (expected, change) ← op.capture limits now
        match ← transition op.key expected change slot.present slot.version tx.db.highWater with
        | .unchanged => .ok (left, tx)
        | .delete version highWater =>
            .ok ({ key := op.key, applied := true, version },
              applyDelete tx slot op.key version highWater)
        | .put value identity version highWater =>
            .ok ({ key := op.key, applied := true, version },
              applyPut tx slot op.key value identity version highWater now)
  else .ok (left, tx)

def applyOps (limits : Limits) (now : Nat) : List BatchOp → Tx
    → Except StateError (List BatchResult × Tx)
  | [], tx => .ok ([], tx)
  | op :: rest, tx => do
      let (result, next) ← applyOp limits now op tx
      let (results, last) ← applyOps limits now rest next
      .ok (result :: results, last)

/-- `MeshBatchView`: what `prepare` reads. A listing is made of what `get` answers. -/
structure View where
  get : JsString → Option Json
  version : JsString → Except StateError Nat

def Database.view (db : Database) : View where
  get := db.entry
  version := fun key => .ok (db.slot key).version

def writeBatch (limits : Limits) (now : Nat) (callerOps : List BatchOp)
    (prepare : View → Except StateError (List BatchOp)) (db : Database)
    : Except StateError (List BatchResult × Database) := do
  callerOps.forM fun op => checkKey op.key
  let ops := callerOps ++ (← prepare db.view)
  ops.forM fun op => checkKey op.key
  let (results, last) ← applyOps limits now ops (begin_ db)
  .ok (results, commit limits.maxStateTombstones last)

/-- One entry of an imported snapshot; a time that is no natural number is not admitted here. -/
def importEntry (tx : Tx) (item : JsString × Json) : Except StateError Tx := do
  let (key, entry) := item
  checkKey key
  if Json.strictEqual (Json.field? "key" entry) (some (.string key)) then
    let version ← storageRevision (Json.field? "version" entry)
    if version = 0 then .error .inconsistent
    else
      match Json.field? "value" entry, Json.field? "updatedBy" entry,
        Json.field? "updatedAt" entry with
      | some value, some updatedBy, some (.number (.int updatedAt)) =>
          let row := KvRow.of key value updatedBy version updatedAt.toNat
          .ok {
            tx with
            db := {
              tx.db with
              kv := tx.db.kv.set key row
              stateBytes := tx.db.stateBytes + row.bytes
              highWater := max tx.db.highWater version
            }
            changes := tx.changes ++ [{ key, version, deleted := false }]
          }
      | _, _, _ => .error .unserializable
  else .error .entry

def importTombstone (state : StateFile) (tx : Tx) (key : JsString) : Except StateError Tx :=
  match state.entries.has key, state.retained.get? key with
  | false, some revision => do
      checkKey key
      let version ← storageRevision (some revision)
      .ok {
        tx with
        db := {
          tx.db with
          tombstones := tx.db.tombstones.set key { version, ord := tx.db.tombstoneOrd + 1 }
          tombstoneOrd := tx.db.tombstoneOrd + 1
          stateBytes := tx.db.stateBytes + tombstoneBytes key
          highWater := max tx.db.highWater version
        }
        deleted := true
      }
  | _, _ => .ok tx

/-- The recorded tombstone order, and then every other key of the revision table. -/
def importOrder (state : StateFile) : List JsString :=
  state.order ++ (objectKeys state.retained).filter fun key => !state.order.contains key

/-- `importState` into an empty database. -/
def importState (maxTombstones : Nat) (state : StateFile) : Except StateError Database := do
  let highWater ← storageRevision (some (state.highWater.getD (number 0)))
  let empty := { emptyDatabase with highWater }
  let entered ← state.entries.entries.foldlM importEntry (begin_ empty)
  let buried ← (importOrder state).foldlM (importTombstone state) entered
  .ok (finish maxTombstones buried)

end PiFabric.State.Sqlite
