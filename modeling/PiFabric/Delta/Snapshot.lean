import PiFabric.Delta.Histories
import PiFabric.Foundation.SortedMerge
import PiFabric.Foundation.Ordinals

/-! Snapshots of the SQLite store: the full rebuild from an export, and the one that is brought
forward by the keys that changed since.
-/

namespace PiFabric.Delta

open JsString

structure StateEntry where
  key : JsString
  value : Json
  version : Nat
  updatedAt : Nat
  updatedBy : Json

def toEntry (key : JsString) (row : State.Sqlite.KvRow) : StateEntry where
  key
  value := State.Sqlite.parsed row.value
  version := row.version
  updatedAt := row.updatedAt
  updatedBy := State.Sqlite.parsed row.updatedBy

structure SqliteStateExport where
  entries : JsMap JsString StateEntry
  versions : JsMap JsString Nat
  tombstoneOrder : List JsString
  highWater : Nat
  backend : JsString
  epoch : Nat
  commit : Nat

def exportState (db : StateDatabase) : SqliteStateExport where
  entries := .bindAll Prod.fst (fun item => toEntry item.1 item.2) .empty db.tables.kv.entries
  versions := .bindAll Prod.fst (fun item => item.2.version)
    (.bindAll Prod.fst (fun item => item.2.version) .empty db.tables.kv.entries) db.tables.tombAll
  tombstoneOrder := db.tables.tombAll.map Prod.fst
  highWater := db.tables.highWater
  backend := db.backend
  epoch := db.epoch
  commit := db.tables.commit

structure MeshStateRetiredError where
  backend : JsString
  epoch : Nat
  opened : Nat

def stampOf (storeId : JsString) (epoch commit : Nat) : JsString :=
  storeId ++ lit ":" ++ Json.digits epoch ++ lit ":" ++ Json.digits commit

def assertLive {α : Type} (store : SqliteStateStore) (db : StateDatabase) (read : α)
    : Except MeshStateRetiredError α :=
  if store.live db then .ok read
  else .error { backend := db.backend, epoch := db.epoch, opened := store.epoch }

def exportLive (store : SqliteStateStore) (db : StateDatabase)
    : Except MeshStateRetiredError (JsString × SqliteStateExport) :=
  assertLive store db (stampOf store.storeId db.epoch db.tables.commit, exportState db)

/-- A key that changed: its entry now, and the version of its entry or tombstone, or zero. -/
structure SqliteDeltaKey where
  key : JsString
  entry : Option StateEntry
  version : Nat

structure SqliteStateDelta where
  stamp : JsString
  commit : Nat
  complete : Bool
  changed : List SqliteDeltaKey
  tombstones : Option (List (JsString × Nat))

/-- What the tables hold of a key that changed. -/
def deltaKey (db : StateDatabase) (key : JsString) : SqliteDeltaKey :=
  match db.tables.kv.get? key with
  | some row => { key, entry := some (toEntry key row), version := row.version }
  | none =>
      { key, entry := none
        version := ((db.tables.tombstones.get? key).map (·.version)).getD 0 }

def changedKeys (db : StateDatabase) (after : Nat) : List JsString :=
  (keysAfter after db.changes).eraseDups

def isTrimmed (db : StateDatabase) (after : Nat) : Bool :=
  ((db.changes.map (·.commit)).min?).all fun oldest => decide (after + 1 < oldest)

def readDelta (store : SqliteStateStore) (after : Nat) (predict : List SqliteDeltaKey → Int)
    (db : StateDatabase)
    : Except MeshStateRetiredError SqliteStateDelta :=
  let stamp := stampOf store.storeId db.epoch db.tables.commit
  let commit := db.tables.commit
  let incomplete : SqliteStateDelta := {
    stamp, commit, complete := false, changed := [], tombstones := none
  }
  let keys := if after < commit then changedKeys db after else []
  let changed := keys.map (deltaKey db)
  assertLive store db
    (if commit < after then incomplete
    else if after < commit ∧ isTrimmed db after = true then incomplete
    else
      { stamp, commit, complete := true, changed
        tombstones :=
          if (db.tables.tombstones.size : Int) = predict changed then none
          else some (db.tables.tombAll.map fun item => (item.1, item.2.version)) })

structure SqliteSnapshot where
  stamp : JsString
  lineage : JsString
  commit : Nat
  entries : JsMap JsString StateEntry
  sorted : List StateEntry
  versions : JsMap JsString Nat

def lineageOf (stamp : JsString) : JsString :=
  match stamp.reverse.findIdx? fun unit => unit = unitOf ':' with
  | some index => stamp.take (stamp.length - 1 - index)
  | none => stamp.take (stamp.length - 1)

section Snapshots

-- `localeCompare`
variable (compare : JsString → JsString → Ordering)

def byKey (left right : StateEntry) : Bool :=
  compare left.key right.key != .gt

def fullSnapshot (stamp : JsString) (state : SqliteStateExport) : SqliteSnapshot where
  stamp
  lineage := lineageOf stamp
  commit := state.commit
  entries := state.entries
  sorted := state.entries.values.mergeSort (byKey compare)
  versions := state.versions

def isTombstone (snapshot : SqliteSnapshot) (key : JsString) : Bool :=
  snapshot.versions.has key && !snapshot.entries.has key

def predictTombstones (base : SqliteSnapshot) (changed : List SqliteDeltaKey) : Int :=
  changed.foldl (fun count item =>
    count + ((if item.entry.isNone ∧ 0 < item.version then 1 else 0)
      - (if isTombstone base item.key then 1 else 0)))
    ((base.versions.size : Int) - base.entries.size)

/-- What the loop over the changed keys has made. -/
structure Applied where
  entries : JsMap JsString StateEntry
  versions : JsMap JsString Nat
  removed : List JsString
  inserted : List StateEntry

def applyKey (applied : Applied) (item : SqliteDeltaKey) : Applied where
  entries :=
    match item.entry with
    | some entry => applied.entries.set item.key entry
    | none => applied.entries.delete item.key
  versions :=
    if 0 < item.version then applied.versions.set item.key item.version
    else applied.versions.delete item.key
  removed := if applied.entries.has item.key then applied.removed ++ [item.key] else applied.removed
  inserted := applied.inserted ++ item.entry.toList

/-- The versions of tombstones replaced by those that were read. -/
def replaceTombstones (entries : JsMap JsString StateEntry) (versions : JsMap JsString Nat)
    (tombstones : List (JsString × Nat))
    : JsMap JsString Nat :=
  .bindAll Prod.fst Prod.snd (versions.filter fun key _ => entries.has key) tombstones

def applySqliteDelta (base : SqliteSnapshot) (delta : SqliteStateDelta) : SqliteSnapshot :=
  if delta.changed = [] ∧ delta.tombstones = none then
    { base with stamp := delta.stamp, lineage := lineageOf delta.stamp, commit := delta.commit }
  else
    let applied := delta.changed.foldl applyKey {
      entries := base.entries, versions := base.versions, removed := [], inserted := []
    }
    { stamp := delta.stamp
      lineage := lineageOf delta.stamp
      commit := delta.commit
      entries := applied.entries
      sorted :=
        if applied.removed = [] ∧ applied.inserted = [] then base.sorted
        else
          SortedMerge.mergeFrom (fun left right => compare left.key right.key == .lt)
            (if applied.removed = [] then base.sorted
            else base.sorted.filter fun entry => entry.key ∉ applied.removed)
            0 (applied.inserted.mergeSort (byKey compare))
      versions :=
        match delta.tombstones with
        | none => applied.versions
        | some tombstones => replaceTombstones applied.entries applied.versions tombstones }

/-- `refreshSnapshot`, with the database that the read transaction of the snapshot saw: the delta is
read first, and the full export in a transaction of its own.
-/
def refreshSnapshot (store : SqliteStateStore) (base : Option SqliteSnapshot)
    (first second : StateDatabase)
    : Except MeshStateRetiredError (SqliteSnapshot × StateDatabase) :=
  let full : Except MeshStateRetiredError (SqliteSnapshot × StateDatabase) :=
    (exportLive store second).map fun read => (fullSnapshot compare read.1 read.2, second)
  match base with
  | none => full
  | some base =>
      match readDelta store base.commit (predictTombstones base) first with
      | .error error => .error error
      | .ok delta =>
          if delta.complete ∧ lineageOf delta.stamp = base.lineage then
            .ok (applySqliteDelta compare base delta, first)
          else full

end Snapshots

end PiFabric.Delta
