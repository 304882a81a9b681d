import PiFabric.Projector.Apply

/-! The divergence check: the whole file state compared with the tables at the projected generation,
and the resync that repairs what it finds.
-/

namespace PiFabric.Projector

open JsString

inductive Field where
  | presence
  | version
  | value
  | updatedAt
  | updatedBy
  | tombstone
  | tombstoneOrder
  | bytes
  | stateBytes
  | highWater
deriving DecidableEq

structure Side where
  value : Option Json
  updatedBy : Option Json

structure ProjectorDivergence where
  key : JsString
  field : Field
  file : Option Side
  sqlite : Option Side
  fileVersion : Option Int
  sqliteVersion : Option Int
  filePosition : Option Nat
  sqlitePosition : Option Nat
  sqliteOrd : Option Int
  fileBytes : Option Int
  sqliteBytes : Option Int

def bareDivergence (key : JsString) (field : Field) : ProjectorDivergence where
  key
  field
  file := none
  sqlite := none
  fileVersion := none
  sqliteVersion := none
  filePosition := none
  sqlitePosition := none
  sqliteOrd := none
  fileBytes := none
  sqliteBytes := none

/-- What a row holds, with its texts parsed; a text that is no JSON gives nothing. -/
structure Stored where
  value : Option Json
  updatedBy : Option Json
  version : Int
  updatedAt : ℚ

def storedOf (row : Row) : Stored where
  value := Json.parse row.value
  updatedBy := Json.parse row.updatedBy
  version := row.version
  updatedAt := row.updatedAt

/-- The first field in which an entry and its row differ. `JSON.stringify` of nothing is nothing. -/
def entryField (key : JsString) : Option Entry → Option Row → Option Field
  | none, none => none
  | some _, none => some .presence
  | none, some _ => some .presence
  | some file, some row =>
      let stored := storedOf row
      if file.version ≠ stored.version then some .version
      else if file.value.map Json.stringify ≠ stored.value.map Json.stringify then some .value
      else if some (Json.stringify file.updatedBy) ≠ stored.updatedBy.map Json.stringify then
        some .updatedBy
      else if file.updatedAt ≠ stored.updatedAt then some .updatedAt
      else if row.bytes ≠ entryBytes key row.value row.updatedBy then some .bytes
      else none

def fileSide (entry : Entry) : Side where
  value := entry.value
  updatedBy := some entry.updatedBy

def storedSide (row : Row) : Side where
  value := (storedOf row).value
  updatedBy := (storedOf row).updatedBy

def entryDivergence (snapshot : FileSnapshot) (db : Database) (key : JsString)
    : Option ProjectorDivergence :=
  let file := snapshot.entries.get? key
  let row := db.kv.get? key
  (entryField key file row).map fun field =>
    {
      bareDivergence key field with
      file := file.map fileSide
      sqlite := row.map storedSide
      fileVersion := file.map Entry.version
      sqliteVersion := row.map Row.version
      fileBytes :=
        if field = .bytes then row.map fun row => entryBytes key row.value row.updatedBy else none
      sqliteBytes := if field = .bytes then row.map Row.bytes else none
    }

def entryDivergences (snapshot : FileSnapshot) (db : Database) : List ProjectorDivergence :=
  (snapshot.entries.keys ++ db.kv.keys).eraseDups.filterMap (entryDivergence snapshot db)

def reported (differences : List ProjectorDivergence) (key : JsString) : Bool :=
  differences.any fun divergence => divergence.key = key

def fileTomb (snapshot : FileSnapshot) (key : JsString) : Option Int :=
  snapshot.tombstones.lookup key

def tombstoneDivergences (snapshot : FileSnapshot) (db : Database)
    (differences : List ProjectorDivergence)
    : List ProjectorDivergence :=
  (snapshot.tombstones.map Prod.fst ++ db.tombs.keys).eraseDups.foldl
    (fun differences key =>
      let sqlite := (db.tombs.get? key).map Tomb.version
      if fileTomb snapshot key = sqlite ∨ reported differences key = true then differences
      else
        differences ++ [{
          bareDivergence key .tombstone with
          fileVersion := fileTomb snapshot key
          sqliteVersion := sqlite
        }])
    differences

/-- The order of the keys that both sides hold, position by position, and every ordinal at or below
the mark that the next tombstone is numbered from.
-/
def orderDivergences (snapshot : FileSnapshot) (db : Database)
    (differences : List ProjectorDivergence)
    : List ProjectorDivergence :=
  let fileKeys := snapshot.tombstones.map Prod.fst
  let fileOrder := fileKeys.filter (· ∈ db.tombs.keys)
  let sqliteOrder := db.tombs.rows.filter (·.key ∈ fileKeys)
  sqliteOrder.zipIdx.foldl
    (fun differences (tomb, index) =>
      if (fileOrder[index]? = some tomb.key ∧ tomb.ord ≤ db.tombstoneOrd)
          ∨ reported differences tomb.key = true
        then differences
      else
        differences ++ [{
          bareDivergence tomb.key .tombstoneOrder with
          fileVersion := fileTomb snapshot tomb.key
          sqliteVersion := some tomb.version
          filePosition := fileKeys.idxOf? tomb.key
          sqlitePosition := db.tombs.keys.idxOf? tomb.key
          sqliteOrd := some tomb.ord
        }])
    differences

def derivedBytes (snapshot : FileSnapshot) : Int :=
  (snapshot.entries.entries.map fun entry => (encode entry.1 entry.2).bytes).sum
    + (snapshot.tombstones.map fun tomb => tombBytes tomb.1).sum

def metaDivergences (snapshot : FileSnapshot) (db : Database) : List ProjectorDivergence :=
  (if db.stateBytes = derivedBytes snapshot then []
    else
      [{
        bareDivergence (lit "meta:state_bytes") .stateBytes with
        fileBytes := some (derivedBytes snapshot)
        sqliteBytes := some db.stateBytes
      }])
    ++ if db.highWater < snapshot.highWater then
      [{
        bareDivergence (lit "meta:high_water") .highWater with
        fileVersion := some snapshot.highWater
        sqliteVersion := some db.highWater
      }]
    else []

def differencesOf (snapshot : FileSnapshot) (db : Database) : List ProjectorDivergence :=
  orderDivergences snapshot db (tombstoneDivergences snapshot db (entryDivergences snapshot db))
    ++ metaDivergences snapshot db

/-- `#verify` of an active projector in shadow mode. Only at the projected generation: anything
newer is lag, not divergence.
-/
def verify (projector : StateProjector) (snapshot : FileSnapshot) (db : Database)
    : Except Stop (List ProjectorDivergence) := do
  let progress ← fence projector false db
  if progress.identity = some snapshot.identity then return differencesOf snapshot db
  else return []

end PiFabric.Projector
