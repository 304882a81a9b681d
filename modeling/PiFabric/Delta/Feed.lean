import PiFabric.State.Batches

/-! The change feed of the SQLite store: the rows that a commit adds and those that trimming drops,
and what may happen to one state database.
-/

namespace PiFabric.Delta

open JsString Outcome
open State (Limits StateError StateFile Change transition BatchOp BatchResult)
open State.Sqlite (Database Tx StateChange Tombstone)

structure ChangeRow where
  seq : Nat
  commit : Nat
  key : JsString
  version : Nat
  deleted : Bool

/-- The tables of a state database, its feed in the order of the rows, and who may use it. -/
structure StateDatabase where
  storeId : JsString
  tables : Database
  changes : List ChangeRow
  backend : JsString
  epoch : Nat

structure SqliteStateStore where
  storeId : JsString
  epoch : Nat
  maxTombstones : Nat
  changesRetained : Nat

/-- The meta rows that `#assertLiveMeta` asks for. -/
def SqliteStateStore.live (store : SqliteStateStore) (db : StateDatabase) : Prop :=
  db.backend = lit "sqlite" ∧ db.epoch = store.epoch

instance (store : SqliteStateStore) (db : StateDatabase) : Decidable (store.live db) :=
  inferInstanceAs (Decidable (_ ∧ _))

/-- `changeInsert`: a new row has the number after the greatest one. -/
def changeInsert (commit : Nat) (rows : List ChangeRow) (change : StateChange) : List ChangeRow :=
  rows ++ [{
    seq := ((rows.map (·.seq)).max?).getD 0 + 1
    commit
    key := change.key
    version := change.version
    deleted := change.deleted
  }]

/-- `changeTrim`: the commit that holds the last row up to a number goes, with those before it. -/
def changeTrim (rows : List ChangeRow) (bound : Nat) : List ChangeRow :=
  match (rows.filter fun row => row.seq ≤ bound).getLast? with
  | none => rows
  | some last => rows.filter fun row => last.commit < row.commit

/-- The rows of a commit, and the trimming that follows them now and then. -/
def feed (store : SqliteStateStore) (commit : Nat) (rows : List ChangeRow)
    (changes : List StateChange)
    : List ChangeRow :=
  let inserted := changes.foldl (changeInsert commit) rows
  let seq := if changes = [] then 0 else (inserted.getLast?.map (·.seq)).getD 0
  if store.changesRetained < seq ∧ seq % 64 < changes.length then
    changeTrim inserted (seq - store.changesRetained)
  else inserted

/-- `#run` of a body that returned, with the feed; `finishes` is the transaction's own wish to. -/
def commitWrite (store : SqliteStateStore) (db : StateDatabase) (tx : Tx) (finishes : Bool)
    : StateDatabase :=
  if tx.changes = [] ∧ finishes = false then { db with tables := tx.db }
  else
    { db with
      tables := State.Sqlite.finish store.maxTombstones tx
      changes := feed store (tx.db.commit + 1) db.changes tx.changes }

/-- What the body of a transaction may have done: puts and deletes that the kernel planned. -/
inductive Body (db : Database) : Tx → Prop
  | begun : Body db (State.Sqlite.begin_ db)
  | put {tx : Tx} {key : JsString} {expected : Option Nat} {change : Change} {value identity : Json}
      {version highWater : Nat} (before : Body db tx)
      (planned : transition key expected change (tx.db.slot key).present (tx.db.slot key).version
        tx.db.highWater = .ok (.put value identity version highWater))
      (now : Nat)
      : Body db (State.Sqlite.applyPut tx (tx.db.slot key) key value identity version highWater now)
  | delete {tx : Tx} {key : JsString} {expected : Option Nat} {change : Change}
      {version highWater : Nat} (before : Body db tx)
      (planned : transition key expected change (tx.db.slot key).present (tx.db.slot key).version
        tx.db.highWater = .ok (.delete version highWater))
      : Body db (State.Sqlite.applyDelete tx (tx.db.slot key) key version highWater)

/-- The body of an import into an empty database. -/
def importBody (state : StateFile) : Except StateError Tx := do
  let highWater ← State.storageRevision (some (state.highWater.getD (State.number 0)))
  let empty := { State.Sqlite.emptyDatabase with highWater }
  let entered ← state.entries.entries.foldlM State.Sqlite.importEntry (State.Sqlite.begin_ empty)
  (State.Sqlite.importOrder state).foldlM (State.Sqlite.importTombstone state) entered

theorem importState_eq (maxTombstones : Nat) (state : StateFile)
    : State.Sqlite.importState maxTombstones state
      = (importBody state).map (State.Sqlite.finish maxTombstones) := by
  unfold State.Sqlite.importState importBody
  cases State.storageRevision (some (state.highWater.getD (State.number 0))) with
  | error error => rfl
  | ok highWater =>
      simp only [bind, Except.bind]
      split
      · rfl
      · next tx _ =>
          cases (State.Sqlite.importOrder state).foldlM (State.Sqlite.importTombstone state) tx <;>
            rfl

variable {limits : Limits} {db : Database}

theorem Body.applyOp {now : Nat} {op : BatchOp} {tx next : Tx} {result : BatchResult}
    (before : Body db tx) (done : State.Sqlite.applyOp limits now op tx = .ok (result, next))
    : Body db next := by
  obtain ⟨allowed, -, done⟩ := bind_eq_ok.mp done
  split at done
  · split at done
    · obtain ⟨policy, -, done⟩ := bind_eq_ok.mp done
      cases policy with
      | abort => cases done
      | skip => exact (Prod.mk.inj (Except.ok.inj done)).2 ▸ before
    · obtain ⟨captured, -, done⟩ := bind_eq_ok.mp done
      obtain ⟨moved, planned, done⟩ := bind_eq_ok.mp done
      cases moved with
      | unchanged => exact (Prod.mk.inj (Except.ok.inj done)).2 ▸ before
      | delete version highWater =>
          exact (Prod.mk.inj (Except.ok.inj done)).2 ▸ .delete before planned
      | put value identity version highWater =>
          exact (Prod.mk.inj (Except.ok.inj done)).2 ▸ .put before planned now
  · exact (Prod.mk.inj (Except.ok.inj done)).2 ▸ before

theorem Body.applyOps {now : Nat} {ops : List BatchOp} {tx last : Tx} {results : List BatchResult}
    (before : Body db tx) (done : State.Sqlite.applyOps limits now ops tx = .ok (results, last))
    : Body db last := by
  -- by induction over the operations
  induction ops generalizing tx results with
  | nil => exact (Prod.mk.inj (Except.ok.inj done)).2 ▸ before
  | cons op rest ih =>
      obtain ⟨⟨result, next⟩, one, done⟩ := bind_eq_ok.mp done
      obtain ⟨⟨others, final⟩, more, done⟩ := bind_eq_ok.mp done
      obtain ⟨-, rfl⟩ := Prod.mk.inj (Except.ok.inj done)
      exact ih (before.applyOp one) more

/-- Every call that returns commits a body, which may be empty. -/
theorem body_of_sqlCall {call : State.Call} {answer : State.Answer} {after : Database}
    (done : State.sqlCall limits db call = .ok (answer, after))
    : ∃ tx, Body db tx ∧ after = State.Sqlite.commit limits.maxStateTombstones tx := by
  cases call with
  | put key value identity ifVersion now =>
      obtain ⟨⟨entry, next⟩, written, done⟩ := bind_eq_ok.mp done
      obtain ⟨-, rfl⟩ := Prod.mk.inj (Except.ok.inj done)
      obtain ⟨-, -, written⟩ := bind_eq_ok.mp written
      obtain ⟨captured, -, written⟩ := bind_eq_ok.mp written
      obtain ⟨moved, planned, written⟩ := bind_eq_ok.mp written
      cases moved with
      | put value identity version highWater =>
          exact ⟨_, .put .begun planned now, (Prod.mk.inj (Except.ok.inj written)).2.symm⟩
      | delete version highWater => cases written
      | unchanged => cases written
  | delete key ifVersion =>
      obtain ⟨⟨version, next⟩, written, done⟩ := bind_eq_ok.mp done
      obtain ⟨-, rfl⟩ := Prod.mk.inj (Except.ok.inj done)
      obtain ⟨-, -, written⟩ := bind_eq_ok.mp written
      obtain ⟨captured, -, written⟩ := bind_eq_ok.mp written
      obtain ⟨moved, planned, written⟩ := bind_eq_ok.mp written
      cases moved with
      | put value identity version highWater => cases written
      | delete version highWater =>
          exact ⟨_, .delete .begun planned, (Prod.mk.inj (Except.ok.inj written)).2.symm⟩
      | unchanged => exact ⟨_, .begun, (Prod.mk.inj (Except.ok.inj written)).2.symm⟩
  | batch now ops prepare =>
      obtain ⟨⟨results, next⟩, written, done⟩ := bind_eq_ok.mp done
      obtain ⟨-, rfl⟩ := Prod.mk.inj (Except.ok.inj done)
      obtain ⟨-, -, written⟩ := bind_eq_ok.mp written
      obtain ⟨prepared, -, written⟩ := bind_eq_ok.mp written
      obtain ⟨-, -, written⟩ := bind_eq_ok.mp written
      obtain ⟨⟨all, last⟩, applied, written⟩ := bind_eq_ok.mp written
      exact ⟨last, .applyOps .begun applied, (Prod.mk.inj (Except.ok.inj written)).2.symm⟩

/-- Tables in order: no key has an entry and a tombstone, and entries have versions. -/
structure Sound (db : Database) : Prop where
  apart : ∀ key row, db.kv.get? key = some row → db.tombstones.get? key = none
  versions : ∀ key row, db.kv.get? key = some row → 0 < row.version

/-- A database in order: its tables are, and no row of its feed is of a later commit. -/
structure WellFormed (db : StateDatabase) : Prop where
  sound : Sound db.tables
  commits : ∀ row ∈ db.changes, row.commit ≤ db.tables.commit

/-- A database that was never written to. -/
def NeverWritten (db : StateDatabase) : Prop :=
  db.tables.kv.size = 0 ∧ db.tables.tombstones.size = 0 ∧ db.tables.commit = 0

/-- What may happen to a state database: a live store commits a body, imports a snapshot, binds the
slot authority or retires the database; and a later epoch, or a database that is not live, may be
filled with anything that is in order.
-/
inductive Step (db : StateDatabase) : StateDatabase → Prop
  | write {store : SqliteStateStore} {tx : Tx} (live : store.live db) (body : Body db.tables tx)
      : Step db (commitWrite store db tx false)
  | import_ {store : SqliteStateStore} {state : StateFile} {tx : Tx} (live : store.live db)
      (never : NeverWritten db) (body : importBody state = .ok tx)
      : Step db (commitWrite store db tx true)
  | bind_ {store : SqliteStateStore} (live : store.live db) (never : NeverWritten db)
      : Step db (commitWrite store db (State.Sqlite.begin_ db.tables) true)
  | retire {store : SqliteStateStore} (live : store.live db)
      : Step db { db with backend := lit "retired", epoch := store.epoch + 1 }
  | renew {next : StateDatabase} (same : next.storeId = db.storeId) (formed : WellFormed next)
      (later : db.epoch < next.epoch ∨ db.backend ≠ lit "sqlite" ∧ db.epoch = next.epoch)
      : Step db next

/-- The commits of a state database one after the other. -/
inductive History (start : StateDatabase) : StateDatabase → Prop
  | refl : History start start
  | step {middle last : StateDatabase} (before : History start middle) (next : Step middle last)
      : History start last

theorem History.trans {first second third : StateDatabase} (earlier : History first second)
    (later : History second third)
    : History first third := by
  induction later with
  | refl => exact earlier
  | step _ next ih => exact .step ih next

def freshDatabase (storeId : JsString) : StateDatabase where
  storeId
  tables := State.Sqlite.emptyDatabase
  changes := []
  backend := lit "sqlite"
  epoch := 1

end PiFabric.Delta
