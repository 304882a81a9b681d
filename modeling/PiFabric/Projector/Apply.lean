import PiFabric.Foundation.JsonObject
import PiFabric.Projector.Tables

/-! The projector's transactions: one journal record, or one snapshot of the file, brought into the
tables. Each runs behind a fence, and a transaction that throws is rolled back.
-/

namespace PiFabric.Projector

open JsString

inductive FenceReason where
  | foreignWrite
  | foreignDatabase
  | retired
  | leaseLost
deriving DecidableEq

inductive Stop where
  /-- A fence the projector must not cross. -/
  | fence (reason : FenceReason) (detail : JsString)
  /-- The journal cannot carry the projection forward. -/
  | gap (detail : JsString)
  /-- SQLite refuses a row that is not unique. -/
  | constraint
deriving DecidableEq

structure StateProjector where
  owner : JsString
  database : JsString
  changesRetained : Nat

/-- An entry of the file; one without a value has none. -/
structure Entry where
  value : Option Json
  version : Int
  updatedAt : ℚ
  updatedBy : Json

def maxSafeInteger : Int := 9007199254740991

def revision : Option Json → Option Int
  | some (.number number) =>
      let value := number.value
      if value.den = 1 ∧ 0 ≤ value.num ∧ value.num ≤ maxSafeInteger then some value.num else none
  | _ => none

def isRecord : Json → Bool
  | .object _ => true
  | _ => false

def toEntry (key : JsString) (value : Json) : Option Entry :=
  match value.field? "key", revision (value.field? "version"), value.field? "updatedAt",
      value.field? "updatedBy" with
  | some (.string own), some version, some (.number updatedAt), some updatedBy =>
      if own = key ∧ version ≠ 0 ∧ isRecord updatedBy = true then
        some { value := value.field? "value", version, updatedAt := updatedAt.value, updatedBy }
      else none
  | _, _, _, _ => none

def valueText (entry : Entry) : JsString :=
  (entry.value.map Json.stringify).getD (lit "null")

def encode (key : JsString) (entry : Entry) : Row where
  value := valueText entry
  version := entry.version
  updatedAt := entry.updatedAt
  updatedBy := Json.stringify entry.updatedBy
  bytes := entryBytes key (valueText entry) (Json.stringify entry.updatedBy)

structure JournalRecord where
  generation : JsString
  previous : Option Json
  hash : JsString
  identity : Option JsString
  entries : JsMap JsString Json
  versions : JsMap JsString Json
  tombstoneOrder : Option Json
  tombstonePatch : Option Json
  highWater : Int
  /-- Byte offset right after this record's line. -/
  offsetAfter : Nat

structure FileSnapshot where
  identity : JsString
  generation : Option JsString
  hash : Option JsString
  cursor : Option JournalCursor
  entries : JsMap JsString Entry
  tombstones : List (JsString × Int)
  highWater : Int
  distinct : (tombstones.map Prod.fst).Nodup

def emptyProgress : Progress where
  generation := none
  hash := none
  identity := none
  cursor := none
  commit := 0
  appliedAt := 0

def backendFence (db : Database) : Except Stop Unit :=
  let backend := db.backend.getD (lit "missing")
  if backend = lit "sqlite" then .ok ()
  else .error (.fence .retired (lit "state database backend is " ++ backend))

def fence (projector : StateProjector) (inTransaction : Bool) (db : Database)
    : Except Stop Progress := do
  backendFence db
  if inTransaction = true ∧ db.leaseOwner ≠ some projector.owner then
    .error (.fence .leaseLost (lit "projector lease lost"))
  else
    match db.progress with
    | none =>
        if db.commitNo = 0 ∧ db.kv.size = 0 ∧ db.tombs.rows.length = 0 then .ok emptyProgress
        else
          .error (.fence .foreignDatabase
            (projector.database ++ lit " holds state the projector did not write"))
    | some progress =>
        if progress.commit = db.commitNo then .ok progress
        else
          .error (.fence .foreignWrite
            (lit "commit " ++ Json.integerToken db.commitNo ++ lit " in " ++ projector.database
              ++ lit " was not written by the projector (last " ++ Json.integerToken progress.commit
              ++ lit ")"))

def add (touched : List JsString) (key : JsString) : List JsString :=
  if key ∈ touched then touched else touched ++ [key]

/-- The entry rows as a transaction has left them, and the keys it has touched. -/
structure Writes where
  kv : JsMap JsString Row
  touched : List JsString

/-- Writes a row unless the one there is the same. -/
def Writes.put (writes : Writes) (key : JsString) (existing : Option Row) (row : Row) : Writes :=
  if existing = some row then writes
  else { kv := writes.kv.set key row, touched := add writes.touched key }

def Writes.delete (writes : Writes) (key : JsString) : Writes where
  kv := writes.kv.delete key
  touched := add writes.touched key

def applyEntry (writes : Writes) (member : JsString × Json) : Except Stop Writes :=
  match member.2 with
  | .null => .ok (if writes.kv.has member.1 then writes.delete member.1 else writes)
  | value =>
      match toEntry member.1 value with
      | none => .error (.gap (lit "invalid journal entry " ++ Json.quote member.1))
      | some entry =>
          .ok (writes.put member.1 (writes.kv.get? member.1) (encode member.1 entry))

def stringsOf : Option Json → Option (List JsString)
  | some (.array items) => items.mapM fun item => Json.text? (some item)
  | _ => none

/-- The tombstone delta of the journal: keep the base order minus `remove`, then append. -/
def applyTombstonePatch (base : List JsString) (patch : Json) : Option (List JsString) :=
  match stringsOf (patch.field? "remove"), stringsOf (patch.field? "append") with
  | some remove, some append =>
      let next := base.filter (· ∉ remove) ++ append
      if remove.Nodup ∧ (∀ key ∈ remove, key ∈ base) ∧ next.Nodup then some next else none
  | _, _ => none

def orderOf (record : JournalRecord) (currentKeys : List JsString)
    : Except Stop (List JsString) :=
  match record.tombstonePatch, record.tombstoneOrder with
  | some patch, _ =>
      match applyTombstonePatch currentKeys patch with
      | some order => .ok order
      | none => .error (.gap (lit "the tombstone patch does not apply"))
  | none, none => .ok currentKeys
  | none, some .null => .ok currentKeys
  | none, some order =>
      match stringsOf (some order) with
      | some order => .ok order
      | none => .error (.gap (lit "invalid tombstone order"))

def objectPrototype : List JsString :=
  [lit "constructor", lit "__defineGetter__", lit "__defineSetter__", lit "hasOwnProperty",
    lit "__lookupGetter__", lit "__lookupSetter__", lit "isPrototypeOf",
    lit "propertyIsEnumerable", lit "toString", lit "valueOf", lit "__proto__",
    lit "toLocaleString"]

/-- The version of a key's tombstone: as the record states it, else the one that it has. An
inherited name states something that is no revision.
-/
def tombVersionOf (record : JournalRecord) (tombs : TombTable) (key : JsString) : Option Int :=
  match record.versions.get? key with
  | some stated => revision (some stated)
  | none => if key ∈ objectPrototype then none else (tombs.get? key).map Tomb.version

def desiredOf (record : JournalRecord) (tombs : TombTable) (kv : JsMap JsString Row)
    (key : JsString)
    : Except Stop (JsString × Int) :=
  match tombVersionOf record tombs key with
  | none => .error (.gap (lit "inconsistent tombstone " ++ Json.quote key))
  | some version =>
      if kv.has key then .error (.gap (lit "inconsistent tombstone " ++ Json.quote key))
      else .ok (key, version)

/-- The longest prefix of the kept rows that is in the desired order with every ordinal at or below
the mark, each row with the version it shall have.
-/
def keptPrefix (mark : Int) : List (JsString × Int) → List Tomb → List (Tomb × Int)
  | want :: desired, tomb :: kept =>
      if want.1 = tomb.key ∧ tomb.ord ≤ mark then (tomb, want.2) :: keptPrefix mark desired kept
      else []
  | _, _ => []

/-- The tombstone rows as a transaction has left them, the mark, and the keys it has touched. -/
structure TombWrites where
  table : TombTable
  ordinal : Int
  touched : List JsString

def retarget (writes : TombWrites) (pair : Tomb × Int) : TombWrites :=
  if pair.2 = pair.1.version then writes
  else {
    writes with
    table := writes.table.setVersion pair.1.key pair.2
    touched := add writes.touched pair.1.key
  }

def renumber (moved : List Tomb) (writes : TombWrites) (want : JsString × Int)
    : Except Stop TombWrites :=
  let row : Tomb := { key := want.1, version := want.2, ord := writes.ordinal + 1 }
  match writes.table.insert? row with
  | none => .error .constraint
  | some table =>
      .ok {
        table
        ordinal := row.ord
        touched := if moved.find? (·.key = want.1) = some row then writes.touched
          else add writes.touched want.1
      }

def syncTombstones (desired : List (JsString × Int)) (table : TombTable) (mark : Int)
    (touched : List JsString)
    : Except Stop TombWrites :=
  let desiredKeys := desired.map Prod.fst
  let kept := table.rows.filter (·.key ∈ desiredKeys)
  let firsts := keptPrefix mark desired kept
  let removed := (table.rows.filter (·.key ∉ desiredKeys)).map Tomb.key
  let moved := kept.drop firsts.length
  let writes : TombWrites := {
    table := (table.deleteAll removed).deleteAll (moved.map Tomb.key)
    ordinal := mark
    touched := removed.foldl add touched
  }
  (desired.drop firsts.length).foldlM (renumber moved) (firsts.foldl retarget writes)

/-- The changes of a commit: a key is published when its slot moved or any of its rows was written.
-/
def published (before : List (JsString × Slot)) (candidates touched : List JsString)
    (after : JsString → Slot)
    : List (JsString × Slot) :=
  ((candidates ++ touched).eraseDups.filter fun key =>
      before.lookup key ≠ some (after key) ∨ key ∈ touched).map
    fun key => (key, after key)

def lastSeq (changes : List ChangeRow) : Int :=
  (changes.getLast?.map ChangeRow.seq).getD 0

def rowsOf (commit : Int) : Int → List (JsString × Slot) → List ChangeRow
  | _, [] => []
  | seq, change :: rest =>
      {
        seq := seq + 1
        commit
        key := change.1
        version := change.2.version
        deleted := change.2.deleted
      } :: rowsOf commit (seq + 1) rest

/-- `changeTrim`: whole commits only, up to the one that holds the last row at or below `seq`. -/
def changeTrim (seq : Int) (changes : List ChangeRow) : List ChangeRow :=
  match (changes.filter (·.seq ≤ seq)).getLast? with
  | none => changes
  | some last => changes.filter fun row => ¬ row.commit ≤ last.commit

def feedAfter (projector : StateProjector) (changes : List ChangeRow) : List ChangeRow :=
  let seq := lastSeq changes
  if seq > projector.changesRetained then changeTrim (seq - projector.changesRetained) changes
  else changes

def maxVersion (db : Database) : Option Int :=
  (db.kv.values.map Row.version ++ db.tombs.rows.map Tomb.version).max?

def kvBytes (db : Database) : Int :=
  (db.kv.values.map Row.bytes).sum

def tombstonesBytes (db : Database) : Int :=
  (db.tombs.keys.map tombBytes).sum

def finish (projector : StateProjector) (before : List (JsString × Slot))
    (candidates touched : List JsString) (highWater : Int) (next : Progress) (db : Database)
    : Database :=
  let added := published before candidates touched db.slot
  let commit := if added.isEmpty then db.commitNo else db.commitNo + 1
  {
    db with
    changes :=
      if added.isEmpty then db.changes
      else feedAfter projector (db.changes ++ rowsOf commit (lastSeq db.changes) added)
    -- The clock never goes back: SQLite issues the next revisions after cutover.
    highWater := max (max db.highWater highWater) ((maxVersion db).getD 0)
    commitNo := commit
    stateBytes := kvBytes db + tombstonesBytes db
    progress := some { next with commit }
  }

def applyRecord (projector : StateProjector) (record : JournalRecord) (next : Progress)
    (db : Database)
    : Except Stop Database := do
  let currentKeys := db.tombs.keys
  let order ← orderOf record currentKeys
  let candidates :=
    (record.entries.keys ++ record.versions.keys ++ currentKeys ++ order).eraseDups
  let before := candidates.map fun key => (key, db.slot key)
  let writes ← record.entries.entries.foldlM applyEntry { kv := db.kv, touched := [] }
  let desired ← order.mapM (desiredOf record db.tombs writes.kv)
  let tombs ← syncTombstones desired db.tombs db.tombstoneOrd writes.touched
  return finish projector before candidates tombs.touched record.highWater next
    { db with kv := writes.kv, tombs := tombs.table, tombstoneOrd := tombs.ordinal }

/-- The entry rows that a snapshot asks for: rows that differ are written, rows of other keys go. -/
def snapshotRows (entries : JsMap JsString Entry) (existing : JsMap JsString Row) : Writes :=
  let writes := entries.entries.foldl
    (fun (writes : Writes) entry =>
      writes.put entry.1 (existing.get? entry.1) (encode entry.1 entry.2))
    { kv := existing, touched := [] }
  (existing.keys.filter fun key => !entries.has key).foldl Writes.delete writes

def applySnapshot (projector : StateProjector) (snapshot : FileSnapshot) (next : Progress)
    (db : Database)
    : Except Stop Database := do
  let candidates := (db.kv.keys ++ snapshot.entries.keys ++ db.tombs.keys
    ++ snapshot.tombstones.map Prod.fst).eraseDups
  let before := candidates.map fun key => (key, db.slot key)
  let writes := snapshotRows snapshot.entries db.kv
  let tombs ← syncTombstones snapshot.tombstones db.tombs db.tombstoneOrd writes.touched
  return finish projector before candidates tombs.touched snapshot.highWater next
    { db with kv := writes.kv, tombs := tombs.table, tombstoneOrd := tombs.ordinal }

/-- A projection transaction, with the time it is applied at. -/
inductive Transaction where
  | record (record : JournalRecord) (inode : JsString) (now : Int)
  | snapshot (snapshot : FileSnapshot) (now : Int)

def follows (base : Progress) (record : JournalRecord) : Bool :=
  match record.previous, base.generation with
  | some (.string previous), some generation => previous == generation
  | some .null, none => true
  | _, _ => false

def project (projector : StateProjector) (db : Database) : Transaction → Except Stop Database
  | .record record inode now => do
      let base ← fence projector true db
      if follows base record then
        applyRecord projector record
          {
            generation := some record.generation
            hash := some record.hash
            identity := record.identity
            cursor := some { inode, offset := record.offsetAfter }
            commit := base.commit
            appliedAt := now
          }
          db
      else .error (.gap (lit "the projected generation moved"))
  | .snapshot snapshot now => do
      let base ← fence projector true db
      applySnapshot projector snapshot
        {
          generation := snapshot.generation
          hash := snapshot.hash
          identity := some snapshot.identity
          cursor := snapshot.cursor
          commit := base.commit
          appliedAt := now
        }
        db

end PiFabric.Projector
