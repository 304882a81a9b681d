import PiFabric.State.Compaction

/-! The SQLite store refines the file store: every call of a run answers alike, and the tables
hold what the file holds.
-/

namespace PiFabric.State

open JsString Sqlite Ordinals Outcome

/-- A snapshot of the file with its list of tombstones, and a transaction that follows it. -/
structure Within (maxTombstones : Nat) (working : Working) (tx : Tx) : Prop where
  mirrors : Mirrors working.state tx.db
  accounts : Accounts tx.db
  order : working.tombstones = tx.db.tombstones.keys
  bounded : Bounded maxTombstones tx
  stamped : tx.changes ≠ [] → working.state.recorded = tx.db.highWater

variable {maxTombstones : Nat} {working : Working} {tx : Tx} {state : StateFile} {db : Database}
  {key : JsString}

theorem keys_delete (map : JsMap JsString Tombstone) (key : JsString)
    : (map.delete key).keys = map.keys.filter (· ≠ key) := by
  unfold JsMap.keys JsMap.delete
  rw [List.filter_map]
  rfl

theorem Mirrors.keys_applyPut (h : Mirrors state tx.db) (value identity : Json)
    (version highWater now : Nat)
    : (applyPut tx (tx.db.slot key) key value identity version highWater now).db.tombstones.keys
      = tx.db.tombstones.keys.filter (· ≠ key) := by
  unfold applyPut
  simp only
  split
  · exact keys_delete ..
  · next clean =>
      have absent : key ∉ tx.db.tombstones.keys := by
        rw [slot_tombstone] at clean
        refine JsMap.get?_eq_none_iff.mp ?_
        cases live : tx.db.kv.get? key with
        | some row => exact h.apart key row live
        | none => simpa [live] using clean
      refine (List.filter_eq_self.mpr fun other member => ?_).symm
      have apart : other ≠ key := fun same => absent (same ▸ member)
      simpa using apart

variable {expected : Option Nat} {change : Change}

theorem transition_room {present : Bool} {actual clock : Nat} {result : Transition}
    (h : transition key expected change present actual clock = .ok result)
    : result = .unchanged ∨ clock < maxSafeInteger := by
  rw [transition_eq] at h
  split at h
  · cases h
  split at h
  swap
  · cases h
  cases change with
  | put value identity =>
      simp only at h
      split at h
      · exact .inr ‹_›
      · cases h
  | delete =>
      simp only at h
      split at h
      · split at h
        · exact .inr ‹_›
        · cases h
      · exact .inl (Except.ok.inj h).symm

/-- A put of both keeps them together. -/
theorem Within.store (h : Within maxTombstones working tx) {value identity : Json}
    {version highWater : Nat}
    (moved : transition key expected change (tx.db.slot key).present (tx.db.slot key).version
      tx.db.highWater = .ok (.put value identity version highWater)) (now : Nat)
    : Within maxTombstones
        {
          state := working.state.store key value identity version highWater now
          tombstones := working.tombstones.filter (· ≠ key)
        }
        (applyPut tx (tx.db.slot key) key value identity version highWater now) := by
  obtain ⟨-, issued, rfl⟩ := transition_ok moved
  have room := (transition_room moved).resolve_left (by simp)
  have below := h.mirrors.version_le key
  have keys := @Mirrors.keys_applyPut tx working.state key h.mirrors value identity version
    (tx.db.highWater + 1) now
  refine ⟨h.mirrors.store rfl (by rw [issued]; exact Nat.succ_pos _)
      (by rw [issued]; split <;> omega) room value identity now,
    h.accounts.applyPut h.mirrors rfl value identity version _ now, ?_, fun kept => ?_,
    fun _ => rfl⟩
  · rw [keys, ← h.order]
  · have few := h.bounded kept
    have size (map : JsMap JsString Tombstone) : map.size = map.keys.length := by
      simp [JsMap.size, JsMap.keys]
    rw [size] at few ⊢
    rw [keys]
    exact (List.length_filter_le ..).trans few

/-- A delete of both keeps them together. -/
theorem Within.bury (h : Within maxTombstones working tx) {version highWater : Nat}
    (moved : transition key expected change (tx.db.slot key).present (tx.db.slot key).version
      tx.db.highWater = .ok (.delete version highWater))
    : Within maxTombstones
        {
          state := working.state.bury key version highWater
          tombstones := working.tombstones.filter (· ≠ key) ++ [key]
        }
        (applyDelete tx (tx.db.slot key) key version highWater) := by
  obtain ⟨-, present, issued, rfl⟩ := transition_ok moved
  have room := (transition_room moved).resolve_left (by simp)
  have below := h.mirrors.version_le key
  have absent := h.mirrors.no_tombstone present
  refine ⟨h.mirrors.bury rfl (by omega) room,
    h.accounts.applyDelete h.mirrors rfl present version _, ?_, fun kept => ?_, fun _ => rfl⟩
  · have others : tx.db.tombstones.keys.filter (· ≠ key) = tx.db.tombstones.keys := by
      refine List.filter_eq_self.mpr fun other member => ?_
      have apart : other ≠ key := fun same => absent (same ▸ member)
      simpa using apart
    change _ = (tx.db.tombstones.set key { version, ord := tx.db.tombstoneOrd + 1 }).keys
    rw [JsMap.keys_set, if_neg absent, h.order, others]
  · cases kept

/-- No policy function is asked about a key that every object has a function under. -/
def BatchOp.Plain (op : BatchOp) : Prop :=
  ∀ policy, op.onConflict = .ask policy → op.key ∉ inheritedKeys

variable {op : BatchOp}

theorem Mirrors.decide (h : Mirrors state db) (plain : op.Plain)
    : op.onConflict.decide (existingEntry state op.key)
      = op.onConflict.decide
        (.ok (if (db.slot op.key).present then db.entry op.key else none)) := by
  cases asks : op.onConflict with
  | fixed policy => rfl
  | ask policy =>
      have ordinary : inheritedKeys.contains op.key = false := by
        simpa using plain policy asks
      have existing : existingEntry state op.key
          = .ok (if (db.slot op.key).present then db.entry op.key else none) := by
        unfold existingEntry
        rw [h.entries, ordinary, Database.slot_present, Database.entry]
        cases db.kv.get? op.key <;> rfl
      rw [existing]

theorem Mirrors.allowed (h : Mirrors state db) (op : BatchOp)
    : op.allowed state = Sqlite.allowed db op := by
  have get : state.entries.get? = db.entry := funext h.entries
  cases op with
  | put key value identity ifVersion onConflict => rfl
  | delete key ifVersion onConflict condition =>
      cases condition with
      | none => rfl
      | some condition => exact congrArg condition get

theorem applyOp_alike (h : Within maxTombstones working tx) (limits : Limits) (now : Nat)
    (plain : op.Plain)
    : Alike (Within maxTombstones) (State.applyOp limits now op working)
        (Sqlite.applyOp limits now op tx) := by
  unfold State.applyOp Sqlite.applyOp
  rw [h.mirrors.stateSlot op.key, h.mirrors.allowed op]
  simp only [ok_bind]
  refine Alike.bind_same fun allowed => ?_
  cases allowed with
  | false => exact ⟨rfl, h⟩
  | true =>
      simp only [if_true]
      cases op.ifVersion.filter fun version =>
          !Json.strictEqual (some version) (some (number (tx.db.slot op.key).version)) with
      | some expected =>
          simp only [h.mirrors.decide plain]
          refine Alike.bind_same fun policy => ?_
          cases policy with
          | abort => rfl
          | skip => exact ⟨rfl, h⟩
      | none =>
          refine Alike.bind_same fun captured => ?_
          obtain ⟨expected, change⟩ := captured
          refine Alike.bind_ok fun moved transitioned => ?_
          cases moved with
          | unchanged => exact ⟨rfl, h⟩
          | delete version highWater => exact ⟨rfl, h.bury transitioned⟩
          | put value identity version highWater => exact ⟨rfl, h.store transitioned now⟩

variable {ops : List BatchOp}

/-- The operations of a batch do the same to both, by induction over them. -/
theorem applyOps_alike (limits : Limits) (now : Nat) (plain : ∀ op ∈ ops, op.Plain)
    (h : Within maxTombstones working tx)
    : Alike (Within maxTombstones) (State.applyOps limits now ops working)
        (Sqlite.applyOps limits now ops tx) := by
  induction ops generalizing working tx with
  | nil => exact ⟨rfl, h⟩
  | cons op rest ih =>
      refine (applyOp_alike h limits now (plain op List.mem_cons_self)).bind ?_
      intro result next nextTx together
      refine (ih (fun other member => plain other (List.mem_cons_of_mem _ member))
        together).bind ?_
      intro results last lastTx final
      exact ⟨rfl, final⟩

inductive Call where
  | put (key : JsString) (value : Option Json) (identity : Json) (ifVersion : Option Json)
      (now : Nat)
  | delete (key : JsString) (ifVersion : Option Json)
  | batch (now : Nat) (ops : List BatchOp) (prepare : View → Except StateError (List BatchOp))

inductive Answer where
  | entry (entry : Json)
  | deleted (version : Option Nat)
  | results (results : List BatchResult)

def StateFile.view (state : StateFile) : View where
  get := state.entries.get?
  version := fun key => (stateSlot state key).map Slot.version

def fileCall (limits : Limits) (state : StateFile) : Call → Except StateError (Answer × StateFile)
  | .put key value identity ifVersion now => do
      let (entry, _, next) ← State.put limits key value identity ifVersion now state
      .ok (.entry entry, next)
  | .delete key ifVersion => do
      match ← State.delete limits key ifVersion state with
      | some (version, next) => .ok (.deleted (some version), next)
      | none => .ok (.deleted none, state)
  | .batch now ops prepare => do
      let (_, results, next) ← State.writeBatch limits now ops (fun state => prepare state.view) state
      .ok (.results results, next.getD state)

def sqlCall (limits : Limits) (db : Database) : Call → Except StateError (Answer × Database)
  | .put key value identity ifVersion now => do
      let (entry, next) ← Sqlite.put limits key value identity ifVersion now db
      .ok (.entry entry, next)
  | .delete key ifVersion => do
      let (version, next) ← Sqlite.delete limits key ifVersion db
      .ok (.deleted version, next)
  | .batch now ops prepare => do
      let (results, next) ← Sqlite.writeBatch limits now ops prepare db
      .ok (.results results, next)

def Call.Plain : Call → Prop
  | .put .. => True
  | .delete .. => True
  | .batch _ ops prepare => (∀ op ∈ ops, op.Plain)
      ∧ ∀ view prepared, prepare view = .ok prepared → ∀ op ∈ prepared, op.Plain

/-- The file and the database between two calls. -/
structure Twin (maxTombstones : Nat) (state : StateFile) (db : Database) : Prop where
  mirrors : Mirrors state db
  accounts : Accounts db
  order : state.order = db.tombstones.keys
  few : db.tombstones.size ≤ maxTombstones

theorem Twin.begin (h : Twin maxTombstones state db)
    : Within maxTombstones { state, tombstones := state.order } (begin_ db) :=
  ⟨h.mirrors, h.accounts, h.order, fun _ => h.few, fun changed => absurd rfl changed⟩

theorem Within.commit (h : Within maxTombstones working tx) (positive : 0 < maxTombstones)
    (changed : tx.changes ≠ [])
    : Twin maxTombstones (compactStateTombstones maxTombstones
        { working.state with tombstoneOrder := some working.tombstones })
        (commit maxTombstones tx) := by
  have finished := h.accounts.finish maxTombstones h.bounded
  obtain ⟨mirrors, order⟩ := h.mirrors.compact h.order (h.stamped changed) positive finished
  unfold Sqlite.commit
  rw [if_neg changed]
  refine ⟨mirrors, finished.accounts, order, ?_⟩
  unfold JsMap.size
  rw [finished.tombstones, List.length_drop]
  unfold JsMap.size
  omega

def Answer.commits : Answer → Nat
  | entry _ => 1
  | deleted version => if version.isSome then 1 else 0
  | results all => if all.any BatchResult.applied then 1 else 0

theorem finish_commit (maxTombstones : Nat) (tx : Tx)
    : (finish maxTombstones tx).commit = tx.db.commit + 1 := by
  unfold Sqlite.finish
  split
  · split <;> rfl
  · rfl

theorem commit_commit (maxTombstones : Nat) (tx : Tx)
    : (commit maxTombstones tx).commit = tx.db.commit + if tx.changes = [] then 0 else 1 := by
  unfold Sqlite.commit
  split
  · rfl
  · exact finish_commit ..

/-- One operation leaves a transaction as it was, or adds a change to it. -/
theorem applyOp_changes {limits : Limits} {now : Nat} {next : Tx} {result : BatchResult}
    (h : Sqlite.applyOp limits now op tx = .ok (result, next))
    : result.applied = false ∧ next = tx
      ∨ result.applied = true ∧ next.changes ≠ [] ∧ next.db.commit = tx.db.commit := by
  obtain ⟨allowed, -, h⟩ := bind_eq_ok.mp h
  split at h
  · split at h
    · obtain ⟨policy, -, h⟩ := bind_eq_ok.mp h
      cases policy with
      | abort => cases h
      | skip =>
          obtain ⟨rfl, rfl⟩ := Prod.mk.inj (Except.ok.inj h)
          exact .inl ⟨rfl, rfl⟩
    · obtain ⟨⟨expected, change⟩, -, h⟩ := bind_eq_ok.mp h
      obtain ⟨moved, -, h⟩ := bind_eq_ok.mp h
      cases moved with
      | unchanged =>
          obtain ⟨rfl, rfl⟩ := Prod.mk.inj (Except.ok.inj h)
          exact .inl ⟨rfl, rfl⟩
      | delete version highWater =>
          obtain ⟨rfl, rfl⟩ := Prod.mk.inj (Except.ok.inj h)
          exact .inr ⟨rfl, by simp [applyDelete], rfl⟩
      | put value identity version highWater =>
          obtain ⟨rfl, rfl⟩ := Prod.mk.inj (Except.ok.inj h)
          exact .inr ⟨rfl, by simp [applyPut], rfl⟩
  · obtain ⟨rfl, rfl⟩ := Prod.mk.inj (Except.ok.inj h)
    exact .inl ⟨rfl, rfl⟩

/-- A batch has changes exactly when one of its operations applied, by induction over them. -/
theorem applyOps_changes {limits : Limits} {now : Nat} {last : Tx} {results : List BatchResult}
    (h : Sqlite.applyOps limits now ops tx = .ok (results, last))
    : (results.any BatchResult.applied = false → last = tx)
      ∧ (results.any BatchResult.applied = true ∨ tx.changes ≠ [] → last.changes ≠ [])
      ∧ last.db.commit = tx.db.commit := by
  induction ops generalizing tx results with
  | nil =>
      obtain ⟨rfl, rfl⟩ := Prod.mk.inj (Except.ok.inj h)
      exact ⟨fun _ => rfl, by simp, rfl⟩
  | cons op rest ih =>
      obtain ⟨⟨result, next⟩, one, h⟩ := bind_eq_ok.mp h
      obtain ⟨⟨others, final⟩, all, h⟩ := bind_eq_ok.mp h
      obtain ⟨rfl, rfl⟩ := Prod.mk.inj (Except.ok.inj h)
      obtain ⟨same, changed, commits⟩ := ih all
      rcases applyOp_changes one with ⟨skipped, rfl⟩ | ⟨applied, some_, kept⟩
      · simpa [skipped] using And.intro same (And.intro changed commits)
      · exact ⟨by simp [applied], fun _ => changed (.inr some_), commits.trans kept⟩

theorem sqlCall_commits {limits : Limits} {call : Call} {answer : Answer} {db' : Database}
    (h : sqlCall limits db call = .ok (answer, db'))
    : db'.commit = db.commit + answer.commits := by
  cases call with
  | put key value identity ifVersion now =>
      obtain ⟨⟨entry, next⟩, written, h⟩ := bind_eq_ok.mp h
      obtain ⟨rfl, rfl⟩ := Prod.mk.inj (Except.ok.inj h)
      obtain ⟨-, -, written⟩ := bind_eq_ok.mp written
      obtain ⟨captured, -, written⟩ := bind_eq_ok.mp written
      obtain ⟨moved, -, written⟩ := bind_eq_ok.mp written
      cases moved with
      | put value identity version highWater =>
          obtain ⟨rfl, rfl⟩ := Prod.mk.inj (Except.ok.inj written)
          exact commit_commit ..
      | delete version highWater => cases written
      | unchanged => cases written
  | delete key ifVersion =>
      obtain ⟨⟨version, next⟩, written, h⟩ := bind_eq_ok.mp h
      obtain ⟨rfl, rfl⟩ := Prod.mk.inj (Except.ok.inj h)
      obtain ⟨-, -, written⟩ := bind_eq_ok.mp written
      obtain ⟨captured, -, written⟩ := bind_eq_ok.mp written
      obtain ⟨moved, -, written⟩ := bind_eq_ok.mp written
      cases moved with
      | put value identity version highWater => cases written
      | delete version highWater =>
          obtain ⟨rfl, rfl⟩ := Prod.mk.inj (Except.ok.inj written)
          exact commit_commit ..
      | unchanged =>
          obtain ⟨rfl, rfl⟩ := Prod.mk.inj (Except.ok.inj written)
          exact commit_commit ..
  | batch now ops prepare =>
      obtain ⟨⟨results, next⟩, written, h⟩ := bind_eq_ok.mp h
      obtain ⟨rfl, rfl⟩ := Prod.mk.inj (Except.ok.inj h)
      obtain ⟨-, -, written⟩ := bind_eq_ok.mp written
      obtain ⟨prepared, -, written⟩ := bind_eq_ok.mp written
      obtain ⟨-, -, written⟩ := bind_eq_ok.mp written
      obtain ⟨⟨all, last⟩, applied, written⟩ := bind_eq_ok.mp written
      obtain ⟨rfl, rfl⟩ := Prod.mk.inj (Except.ok.inj written)
      obtain ⟨same, changed, commits⟩ := applyOps_changes applied
      rw [commit_commit, commits]
      change db.commit + _ = db.commit + if all.any BatchResult.applied = true then 1 else 0
      cases some_ : all.any BatchResult.applied with
      | false =>
          rw [same some_]
          rfl
      | true =>
          rw [if_neg (changed (.inl some_))]
          rfl

variable {limits : Limits}

theorem put_alike (h : Twin limits.maxStateTombstones state db)
    (positive : 0 < limits.maxStateTombstones) (key : JsString) (value : Option Json)
    (identity : Json) (ifVersion : Option Json) (now : Nat)
    : Alike (Twin limits.maxStateTombstones)
        (fileCall limits state (.put key value identity ifVersion now))
        (sqlCall limits db (.put key value identity ifVersion now)) := by
  unfold fileCall sqlCall State.put Sqlite.put
  simp only [bind_assoc]
  refine Alike.bind_same fun checked => Alike.bind_same fun captured => ?_
  obtain ⟨expected, change⟩ := captured
  rw [h.mirrors.stateSlot key]
  simp only [ok_bind]
  refine Alike.bind_ok fun moved transitioned => ?_
  cases moved with
  | put value identity version highWater =>
      exact ⟨rfl, (h.begin.store transitioned now).commit positive (by simp [applyPut])⟩
  | delete version highWater => rfl
  | unchanged => rfl

theorem delete_alike (h : Twin limits.maxStateTombstones state db)
    (positive : 0 < limits.maxStateTombstones) (key : JsString) (ifVersion : Option Json)
    : Alike (Twin limits.maxStateTombstones) (fileCall limits state (.delete key ifVersion))
        (sqlCall limits db (.delete key ifVersion)) := by
  unfold fileCall sqlCall State.delete Sqlite.delete
  simp only [bind_assoc]
  refine Alike.bind_same fun checked => Alike.bind_same fun captured => ?_
  obtain ⟨expected, change⟩ := captured
  rw [h.mirrors.stateSlot key]
  simp only [ok_bind]
  refine Alike.bind_ok fun moved transitioned => ?_
  cases moved with
  | put value identity version highWater => rfl
  | delete version highWater =>
      exact ⟨rfl, (h.begin.bury transitioned).commit positive (by simp [applyDelete])⟩
  | unchanged => exact ⟨rfl, h⟩

theorem Mirrors.view (h : Mirrors state db) : state.view = db.view := by
  have versions : (fun key => (State.stateSlot state key).map Slot.version) = fun key =>
      .ok (db.slot key).version := by
    funext key
    rw [h.stateSlot key]
    rfl
  unfold StateFile.view Database.view
  rw [versions, funext h.entries]

theorem batch_alike (h : Twin limits.maxStateTombstones state db)
    (positive : 0 < limits.maxStateTombstones) (now : Nat)
    {prepare : View → Except StateError (List BatchOp)} (plain : (Call.batch now ops prepare).Plain)
    : Alike (Twin limits.maxStateTombstones) (fileCall limits state (.batch now ops prepare))
        (sqlCall limits db (.batch now ops prepare)) := by
  unfold fileCall sqlCall State.writeBatch Sqlite.writeBatch
  simp only [bind_assoc, h.mirrors.view]
  refine Alike.bind_same fun checked => Alike.bind_ok fun prepared isPrepared =>
    Alike.bind_same fun checkedAll => ?_
  have all : ∀ op ∈ ops ++ prepared, op.Plain := by
    intro op member
    rcases List.mem_append.mp member with own | made
    · exact plain.1 op own
    · exact plain.2 _ _ isPrepared op made
  have order : state.order.eraseDups = state.order :=
    eraseDups_of_nodup (h.order ▸ db.tombstones.distinct)
  rw [order]
  have alike := applyOps_alike limits now all h.begin
  cases ends : State.applyOps limits now (ops ++ prepared)
      { state, tombstones := state.order } with
  | error failure =>
      rw [ends] at alike
      cases other : Sqlite.applyOps limits now (ops ++ prepared) (begin_ db) with
      | error failure' =>
          rw [other] at alike
          exact alike
      | ok value =>
          rw [other] at alike
          cases alike
  | ok value =>
      rw [ends] at alike
      obtain ⟨results, last⟩ := value
      cases other : Sqlite.applyOps limits now (ops ++ prepared) (begin_ db) with
      | error failure' =>
          rw [other] at alike
          cases alike
      | ok value' =>
          obtain ⟨results', last'⟩ := value'
          rw [other] at alike
          obtain ⟨rfl, together⟩ := alike
          obtain ⟨same, changed, -⟩ := applyOps_changes other
          simp only [ok_bind]
          cases some_ : results.any BatchResult.applied with
          | true =>
              simp only [if_true]
              exact ⟨rfl, together.commit positive (changed (.inl some_))⟩
          | false =>
              have unchanged : commit limits.maxStateTombstones last' = db := by
                rw [same some_]
                rfl
              rw [unchanged]
              exact ⟨rfl, h⟩

/-- Every call that the condition admits does the same to both stores. -/
theorem call_alike (h : Twin limits.maxStateTombstones state db)
    (positive : 0 < limits.maxStateTombstones) {call : Call} (plain : call.Plain)
    : Alike (Twin limits.maxStateTombstones) (fileCall limits state call)
        (sqlCall limits db call) := by
  cases call with
  | put key value identity ifVersion now => exact put_alike h positive ..
  | delete key ifVersion => exact delete_alike h positive ..
  | batch now ops prepare => exact batch_alike h positive now plain

/-- A snapshot as the file store's own compaction leaves it: every entry is whole, and the recorded
order lists each tombstone once and none too many.
-/
structure Canonical (maxTombstones : Nat) (state : StateFile) : Prop where
  protocol : checkProtocol state = .ok ()
  marked : ∀ recorded, state.highWater = some recorded →
    ∃ value, value ≤ maxSafeInteger ∧ recorded = number value
  entries : ∀ key entry, state.entries.get? key = some entry → validKey key = true
    ∧ ∃ value identity version now, entry = entryJson key value version now identity
      ∧ 0 < version ∧ version ≤ maxSafeInteger
      ∧ (state.retained.get? key = none ∨ state.retained.get? key = some (number version))
  tombstones : ∀ key revision, state.entries.get? key = none →
    state.retained.get? key = some revision → validKey key = true ∧ key ∈ state.order
      ∧ ∃ version, version ≤ maxSafeInteger ∧ revision = number version
  listed : ∀ key ∈ state.order, state.entries.get? key = none
    ∧ (state.retained.get? key).isSome = true
  distinct : state.order.Nodup
  few : state.order.length ≤ maxTombstones

/-- An import on its way: the entries and the tombstones so far, and a clock that is no higher than
the file's.
-/
structure Importing (state : StateFile) (entered : List (JsString × Json))
    (buried : List JsString) (tx : Tx) : Prop where
  accounts : Accounts tx.db
  entries : ∀ key, tx.db.entry key
    = (entered.find? fun item => item.1 = key).map Prod.snd
  rows : ∀ key row, tx.db.kv.get? key = some row → 0 < row.version
    ∧ row.version ≤ tx.db.highWater
    ∧ (state.retained.get? key = none ∨ state.retained.get? key = some (number row.version))
  keys : tx.db.tombstones.keys = buried
  tombstones : ∀ key row, tx.db.tombstones.get? key = some row →
    state.retained.get? key = some (number row.version) ∧ row.version ≤ tx.db.highWater
  low : state.recorded ≤ tx.db.highWater
  high : tx.db.highWater ≤ state.clock

theorem Importing.entry {entered : List (JsString × Json)}
    (h : Importing state entered [] tx) (canonical : Canonical maxTombstones state)
    {item : JsString × Json} (listed : item ∈ state.entries.entries)
    (fresh : item.1 ∉ entered.map Prod.fst)
    : ∃ next, importEntry tx item = .ok next ∧ Importing state (entered ++ [item]) [] next := by
  obtain ⟨key, entry⟩ := item
  have found : state.entries.get? key = some entry := JsMap.get?_eq_some_iff.mpr listed
  obtain ⟨valid, value, identity, version, now, rfl, positive, safe, agrees⟩ :=
    canonical.entries key entry found
  have absent : tx.db.kv.get? key = none := by
    have none_ := h.entries key
    have missing : (entered.find? fun item => item.1 = key) = none := by
      rw [List.find?_eq_none]
      intro other member same
      exact fresh (List.mem_map.mpr ⟨other, member, of_decide_eq_true same⟩)
    rw [missing, Database.entry] at none_
    exact Option.map_eq_none_iff.mp none_
  have below : version ≤ state.clock := by
    have top := state.versionOf_le_clock key
    rwa [StateFile.versionOf_present found] at top
  have step : importEntry tx (key, entryJson key value version now identity) = .ok {
      tx with
      db := {
        tx.db with
        kv := tx.db.kv.set key (KvRow.of key value identity version now)
        stateBytes := tx.db.stateBytes + (KvRow.of key value identity version now).bytes
        highWater := max tx.db.highWater version
      }
      changes := tx.changes ++ [{ key, version, deleted := false }] } := by
    have named : Json.field? "key" (entryJson key value version now identity)
        = some (.string key) := rfl
    have versioned : Json.field? "version" (entryJson key value version now identity)
        = some (number version) := rfl
    have checked : checkKey key = .ok () := if_pos valid
    unfold importEntry
    simp only [named, versioned, checked, ok_bind, storageRevision_number safe]
    rw [if_pos (by simp [Json.strictEqual]), if_neg positive.ne']
    rfl
  refine ⟨_, step, ⟨?_, h.accounts.rising, h.accounts.below⟩, fun other => ?_,
    fun other row stored => ?_, h.keys, fun other row buried => ?_, h.low.trans (le_max_left ..),
    max_le h.high below⟩
  · have kv := JsMap.weigh_set (fun _ row => (row.bytes : Int)) tx.db.kv key
      (KvRow.of key value identity version now)
    rw [absent] at kv
    simp only [kv, h.accounts.stateBytes, Option.map_none, Option.getD_none]
    omega
  · simp only [Database.entry, JsMap.get?_set, List.find?_append]
    by_cases same : other = key
    · subst same
      have missing : (entered.find? fun item => item.1 = other) = none := by
        rw [List.find?_eq_none]
        intro item member same
        exact fresh (List.mem_map.mpr ⟨item, member, of_decide_eq_true same⟩)
      simp only [if_true, missing, Option.map_some, toEntry_of]
      simp
    · have apart : ¬key = other := fun equal => same equal.symm
      have before := h.entries other
      unfold Database.entry at before
      simp [same, apart, before]
  · simp only [JsMap.get?_set] at stored
    split at stored
    · next same =>
        obtain rfl := Option.some.inj stored
        exact ⟨positive, le_max_right .., same ▸ agrees⟩
    · obtain ⟨above, le, agree⟩ := h.rows other row stored
      exact ⟨above, le.trans (le_max_left ..), agree⟩
  · obtain ⟨kept, le⟩ := h.tombstones other row buried
    exact ⟨kept, le.trans (le_max_left ..)⟩

/-- The entries of a canonical snapshot are imported in turn, by induction over them. -/
theorem Importing.entries_all {entered rest : List (JsString × Json)}
    (h : Importing state entered [] tx) (canonical : Canonical maxTombstones state)
    (split : state.entries.entries = entered ++ rest)
    : ∃ next, rest.foldlM importEntry tx = .ok next
      ∧ Importing state state.entries.entries [] next := by
  induction rest generalizing entered tx with
  | nil =>
      rw [List.append_nil] at split
      exact ⟨tx, rfl, split ▸ h⟩
  | cons item rest ih =>
      have listed : item ∈ state.entries.entries := by
        rw [split]
        exact List.mem_append_right _ List.mem_cons_self
      have distinct := state.entries.distinct
      rw [split, List.map_append, List.map_cons] at distinct
      have fresh : item.1 ∉ entered.map Prod.fst := fun inside =>
        (List.nodup_append.mp distinct).2.2 item.1 inside item.1 List.mem_cons_self rfl
      obtain ⟨next, first, after⟩ := h.entry canonical listed fresh
      obtain ⟨last, others, final⟩ := ih after (by rw [split]; simp)
      refine ⟨last, ?_, final⟩
      rw [List.foldlM_cons, first]
      exact others

theorem Importing.tombstone {buried : List JsString}
    (h : Importing state state.entries.entries buried tx)
    (canonical : Canonical maxTombstones state) (listed : key ∈ state.order)
    (fresh : key ∉ buried)
    : ∃ next, importTombstone state tx key = .ok next
      ∧ Importing state state.entries.entries (buried ++ [key]) next := by
  obtain ⟨dead, kept⟩ := canonical.listed key listed
  obtain ⟨revision, found⟩ := Option.isSome_iff_exists.mp kept
  obtain ⟨valid, -, version, safe, rfl⟩ := canonical.tombstones key revision dead found
  have absent : key ∉ tx.db.tombstones.keys := h.keys ▸ fresh
  have none_ : tx.db.tombstones.get? key = none := JsMap.get?_eq_none_iff.mpr absent
  have has : state.entries.has key = false := by
    rw [has_eq_isSome, dead]
    rfl
  have below : version ≤ state.clock := by
    have top := state.versionOf_le_clock key
    rwa [StateFile.versionOf_absent dead, found] at top
  have step : importTombstone state tx key = .ok {
      tx with
      db := {
        tx.db with
        tombstones := tx.db.tombstones.set key { version, ord := tx.db.tombstoneOrd + 1 }
        tombstoneOrd := tx.db.tombstoneOrd + 1
        stateBytes := tx.db.stateBytes + tombstoneBytes key
        highWater := max tx.db.highWater version
      }
      deleted := true } := by
    have checked : checkKey key = .ok () := if_pos valid
    unfold importTombstone
    simp only [has, found, checked, ok_bind, storageRevision_number safe]
  obtain ⟨rising, under⟩ := h.accounts.appended absent version
  refine ⟨_, step, ⟨?_, rising, under⟩, h.entries, fun other row stored => ?_, ?_,
    fun other row stored => ?_, h.low.trans (le_max_left ..), max_le h.high below⟩
  · have tombstones := JsMap.weigh_set (fun key _ => (tombstoneBytes key : Int)) tx.db.tombstones
      key { version, ord := tx.db.tombstoneOrd + 1 }
    rw [none_] at tombstones
    simp only [tombstones, h.accounts.stateBytes, Option.map_none, Option.getD_none]
    omega
  · obtain ⟨above, le, agree⟩ := h.rows other row stored
    exact ⟨above, le.trans (le_max_left ..), agree⟩
  · change (tx.db.tombstones.set key { version, ord := tx.db.tombstoneOrd + 1 }).keys = _
    rw [JsMap.keys_set, if_neg absent, h.keys]
  · simp only [JsMap.get?_set] at stored
    split at stored
    · next same =>
        obtain rfl := Option.some.inj stored
        exact ⟨same ▸ found, le_max_right ..⟩
    · obtain ⟨kept, le⟩ := h.tombstones other row stored
      exact ⟨kept, le.trans (le_max_left ..)⟩

/-- The tombstones of a canonical snapshot are imported in their order, by induction over them. -/
theorem Importing.tombstones_all {buried rest : List JsString}
    (h : Importing state state.entries.entries buried tx)
    (canonical : Canonical maxTombstones state) (split : state.order = buried ++ rest)
    : ∃ next, rest.foldlM (importTombstone state) tx = .ok next
      ∧ Importing state state.entries.entries state.order next := by
  induction rest generalizing buried tx with
  | nil =>
      rw [List.append_nil] at split
      exact ⟨tx, rfl, split ▸ h⟩
  | cons key rest ih =>
      have listed : key ∈ state.order := by
        rw [split]
        exact List.mem_append_right _ List.mem_cons_self
      have distinct := canonical.distinct
      rw [split] at distinct
      have fresh : key ∉ buried := fun inside =>
        (List.nodup_append.mp distinct).2.2 key inside key List.mem_cons_self rfl
      obtain ⟨next, first, after⟩ := h.tombstone canonical listed fresh
      obtain ⟨last, others, final⟩ := ih after (by rw [split]; simp)
      refine ⟨last, ?_, final⟩
      rw [List.foldlM_cons, first]
      exact others

/-- A key of the revision table that the order does not list is live, and is passed over. -/
theorem Canonical.skip (canonical : Canonical maxTombstones state) {keys : List JsString}
    (others : ∀ key ∈ keys, (state.retained.get? key).isSome = true → key ∉ state.order)
    : keys.foldlM (importTombstone state) tx = .ok tx := by
  induction keys with
  | nil => rfl
  | cons key rest ih =>
      have skipped : importTombstone state tx key = .ok tx := by
        unfold importTombstone
        cases found : state.retained.get? key with
        | none => cases state.entries.has key <;> rfl
        | some revision =>
            cases dead : state.entries.get? key with
            | some entry =>
                rw [has_eq_isSome, dead]
                rfl
            | none =>
                obtain ⟨-, listed, -⟩ := canonical.tombstones key revision dead found
                exact absurd listed (others key List.mem_cons_self (by rw [found]; rfl))
      rw [List.foldlM_cons, skipped]
      exact ih fun other member => others other (List.mem_cons_of_mem _ member)

theorem Canonical.clock_le (canonical : Canonical maxTombstones state)
    : state.clock ≤ maxSafeInteger := by
  refine StateFile.clock_le ?_ (fun key revision found => ?_) fun key entry found => ?_
  · unfold StateFile.recorded
    cases marked : state.highWater with
    | none => exact Nat.zero_le _
    | some recorded =>
        obtain ⟨value, safe, rfl⟩ := canonical.marked recorded marked
        exact safe
  · cases dead : state.entries.get? key with
    | none =>
        obtain ⟨-, -, version, safe, rfl⟩ := canonical.tombstones key revision dead found
        exact safe
    | some entry =>
        obtain ⟨-, value, identity, version, now, rfl, -, safe, none_ | agrees⟩ :=
          canonical.entries key entry dead
        · rw [none_] at found
          cases found
        · obtain rfl := Option.some.inj (found.symm.trans agrees)
          exact safe
  · obtain ⟨-, value, identity, version, now, rfl, -, safe, -⟩ := canonical.entries key entry found
    exact safe

theorem import_twin (canonical : Canonical maxTombstones state)
    : ∃ db, importState maxTombstones state = .ok db ∧ Twin maxTombstones state db := by
  obtain ⟨recorded, read, isRecorded⟩ : ∃ recorded,
      storageRevision (some (state.highWater.getD (number 0))) = .ok recorded
        ∧ recorded = state.recorded := by
    unfold StateFile.recorded
    cases marked : state.highWater with
    | none => exact ⟨0, rfl, rfl⟩
    | some value =>
        obtain ⟨recorded, safe, rfl⟩ := canonical.marked value marked
        exact ⟨recorded, storageRevision_number safe, rfl⟩
  have start : Importing state [] [] (begin_ { emptyDatabase with highWater := recorded }) := by
    refine ⟨⟨rfl, List.Pairwise.nil, by simp [begin_, emptyDatabase, JsMap.empty]⟩, fun _ => rfl,
      fun key row found => ?_, rfl, fun key row found => ?_, isRecorded.ge, ?_⟩
    · cases found
    · cases found
    · rw [isRecorded]
      exact state.recorded_le_clock
  obtain ⟨entered, first, afterEntries⟩ := start.entries_all canonical (List.nil_append _).symm
  obtain ⟨buried, second, after⟩ := @Importing.tombstones_all maxTombstones entered state []
    state.order afterEntries canonical rfl
  have third : ((objectKeys state.retained).filter fun key => !state.order.contains key).foldlM
      (importTombstone state) buried = .ok buried := by
    refine canonical.skip fun key member _ => ?_
    simpa using (List.mem_filter.mp member).2
  have size : buried.db.tombstones.size = state.order.length := by
    rw [← after.keys]
    exact (List.length_map ..).symm
  have few := canonical.few
  have finished := after.accounts.finish maxTombstones (fun _ => by omega : Bounded _ buried)
  refine ⟨finish maxTombstones buried, ?_, ?_⟩
  · unfold importState importOrder
    rw [read, ok_bind]
    simp only
    rw [first, ok_bind, List.foldlM_append, second, ok_bind, third]
    rfl
  have none_ : buried.db.tombstones.size - maxTombstones = 0 := by omega
  have same : (finish maxTombstones buried).tombstones = buried.db.tombstones := by
    refine JsMap.ext ?_
    rw [finished.tombstones, none_, List.drop_zero]
  have entry (key : JsString) : buried.db.entry key = state.entries.get? key :=
    after.entries key
  have tombstone (key : JsString) (listed : key ∈ state.order)
      : ∃ row, buried.db.tombstones.get? key = some row := by
    refine Option.isSome_iff_exists.mp ?_
    rw [← has_eq_isSome]
    exact JsMap.has_iff.mpr (after.keys ▸ listed)
  refine ⟨⟨canonical.protocol, canonical.marked, ?_, ?_, fun key => ?_, fun key row found => ?_,
    fun key row found => ?_, fun key found => ?_, fun key row found => ?_⟩, finished.accounts, ?_,
    ?_⟩
  · rw [finished.highWater]
    refine le_antisymm (StateFile.clock_le after.low (fun key revision found => ?_)
      fun key entry_ found => ?_) after.high
    · cases dead : state.entries.get? key with
      | some live =>
          obtain ⟨row, stored, -⟩ := Option.map_eq_some_iff.mp ((entry key).trans dead)
          obtain ⟨-, le, none_ | agrees⟩ := after.rows key row stored
          · rw [none_] at found
            cases found
          · obtain rfl := Option.some.inj (found.symm.trans agrees)
            exact le
      | none =>
          obtain ⟨-, listed, -⟩ := canonical.tombstones key revision dead found
          obtain ⟨row, stored⟩ := tombstone key listed
          obtain ⟨kept, le⟩ := after.tombstones key row stored
          obtain rfl := Option.some.inj (found.symm.trans kept)
          exact le
    · obtain ⟨row, stored, rfl⟩ := Option.map_eq_some_iff.mp ((entry key).trans found)
      exact (after.rows key row stored).2.1
  · rw [finished.highWater]
    exact after.high.trans canonical.clock_le
  · rw [← entry, Database.entry, Database.entry, finished.kv]
  · rw [finished.kv] at found
    exact (after.rows key row found).1
  · rw [finished.kv] at found
    exact (after.rows key row found).2.2
  · rw [finished.kv] at found
    rw [same]
    have dead : state.entries.get? key = none := by
      rw [← entry, Database.entry, found]
      rfl
    cases kept : state.retained.get? key with
    | some revision =>
        obtain ⟨-, listed, -⟩ := canonical.tombstones key revision dead kept
        obtain ⟨row, stored⟩ := tombstone key listed
        rw [stored, ← kept]
        exact (after.tombstones key row stored).1
    | none =>
        cases stored : buried.db.tombstones.get? key with
        | none => rfl
        | some row =>
            have agrees := (after.tombstones key row stored).1
            rw [kept] at agrees
            cases agrees
  · rw [finished.kv] at found
    rw [same]
    cases stored : buried.db.tombstones.get? key with
    | none => rfl
    | some buried_ =>
        have listed : key ∈ state.order := by
          rw [← after.keys]
          exact JsMap.has_iff.mp (JsMap.has_of_get? stored)
        have dead := (canonical.listed key listed).1
        rw [← entry, Database.entry, found] at dead
        cases dead
  · rw [same]
    exact after.keys.symm
  · rw [same]
    omega

def runCalls {σ : Type} (step : σ → Call → Except StateError (Answer × σ))
    : List Call → σ → List (Except StateError Answer) × σ
  | [], store => ([], store)
  | call :: rest, store =>
      match step store call with
      | .error failure => ((.error failure :: (runCalls step rest store).1),
          (runCalls step rest store).2)
      | .ok (answer, next) => ((.ok answer :: (runCalls step rest next).1),
          (runCalls step rest next).2)

def fileLimits (maxEventBytes : Nat) (maxStateTombstones : Int) : Limits where
  maxEventBytes
  maxStateTombstones := (max 1 maxStateTombstones).toNat

def sqlLimits (maxEventBytes : Nat) (maxStateTombstones : Int) : Limits where
  maxEventBytes
  maxStateTombstones := (max 0 maxStateTombstones).toNat

/-- Equal contents: both stores are empty, or the database has imported the file's snapshot. -/
inductive Start (maxStateTombstones : Int) : StateFile → Database → Prop
  | empty : Start maxStateTombstones emptyState emptyDatabase
  | imported {state : StateFile} {db : Database}
      (canonical : Canonical (max 1 maxStateTombstones).toNat state)
      (done : importState (max 0 maxStateTombstones).toNat state = .ok db)
      : Start maxStateTombstones state db

/-- Both stores hold the same, and the counters of the database are what its tables say. -/
structure Agree (state : StateFile) (db : Database) : Prop where
  entries : ∀ key, state.entries.get? key = db.entry key
  order : state.order = db.tombAll.map Prod.fst
  tombstones : ∀ row ∈ db.tombAll, state.entries.has row.1 = false
    ∧ state.retained.get? row.1 = some (number row.2.version)
  highWater : state.clock = db.highWater
  stateBytes : db.stateBytes = db.kv.weigh (fun _ row => row.bytes)
    + db.tombstones.weigh fun key _ => tombstoneBytes key
  distinct : (db.tombstones.entries.map ordOf).Nodup
  below : ∀ row ∈ db.tombstones.entries, row.2.ord ≤ db.tombstoneOrd

theorem Twin.agree (h : Twin maxTombstones state db) : Agree state db := by
  have all : db.tombAll = db.tombstones.entries := mergeSort_rising h.accounts.rising
  refine ⟨h.mirrors.entries, ?_, fun row member => ?_, h.mirrors.clock, h.accounts.stateBytes,
    ?_, h.accounts.below⟩
  · rw [all]
    exact h.order
  · rw [all] at member
    have found : db.tombstones.get? row.1 = some row.2 := JsMap.get?_eq_some_iff.mpr member
    obtain ⟨dead, -⟩ := h.mirrors.buried (List.mem_map.mpr ⟨row, member, rfl⟩)
    have none_ : db.kv.get? row.1 = none := by
      rw [h.mirrors.has] at dead
      exact Option.not_isSome_iff_eq_none.mp (by simp [dead])
    refine ⟨dead, ?_⟩
    rw [h.mirrors.dead row.1 none_, found]
    rfl
  · have rising : (db.tombstones.entries.map ordOf).Pairwise (· < ·) :=
      List.pairwise_map.mpr h.accounts.rising
    exact rising.imp Nat.ne_of_lt

def commitsOf : Except StateError Answer → Nat
  | .ok answer => answer.commits
  | .error _ => 0

theorem run_alike (positive : 0 < limits.maxStateTombstones) {calls : List Call}
    (plain : ∀ call ∈ calls, call.Plain) (h : Twin limits.maxStateTombstones state db)
    : (runCalls (fileCall limits) calls state).1 = (runCalls (sqlCall limits) calls db).1
      ∧ Twin limits.maxStateTombstones (runCalls (fileCall limits) calls state).2
        (runCalls (sqlCall limits) calls db).2
      ∧ (runCalls (sqlCall limits) calls db).2.commit
        = db.commit + ((runCalls (sqlCall limits) calls db).1.map commitsOf).sum := by
  induction calls generalizing state db with
  | nil => exact ⟨rfl, h, rfl⟩
  | cons call rest ih =>
      have others : ∀ call ∈ rest, call.Plain := fun other member =>
        plain other (List.mem_cons_of_mem _ member)
      have alike := call_alike h positive (plain call List.mem_cons_self)
      unfold runCalls
      cases file : fileCall limits state call with
      | error failure =>
          cases sql : sqlCall limits db call with
          | error failure' =>
              rw [file, sql] at alike
              obtain rfl : failure = failure' := alike
              obtain ⟨same, twin, commits⟩ := ih others h
              refine ⟨by rw [same], twin, ?_⟩
              rw [List.map_cons, List.sum_cons, commits]
              simp [commitsOf]
          | ok result' =>
              rw [file, sql] at alike
              cases alike
      | ok result =>
          cases sql : sqlCall limits db call with
          | error failure' =>
              rw [file, sql] at alike
              cases alike
          | ok result' =>
              rw [file, sql] at alike
              obtain ⟨answer, next⟩ := result
              obtain ⟨answer', next'⟩ := result'
              obtain ⟨rfl, twin⟩ := alike
              obtain ⟨same, final, commits⟩ := ih others twin
              refine ⟨by simp only [same], final, ?_⟩
              simp only [List.map_cons, List.sum_cons]
              rw [commits, sqlCall_commits sql, Nat.add_assoc]
              rfl

theorem twin_empty (maxTombstones : Nat) : Twin maxTombstones emptyState emptyDatabase where
  mirrors := {
    protocol := rfl
    marked := by
      rintro recorded ⟨rfl⟩
      exact ⟨0, Nat.zero_le _, rfl⟩
    clock := rfl
    safe := Nat.zero_le _
    entries := fun _ => rfl
    positive := fun _ _ found => by cases found
    live := fun _ _ found => by cases found
    dead := fun _ _ => rfl
    apart := fun _ _ _ => rfl
  }
  accounts := ⟨rfl, List.Pairwise.nil, by simp [emptyDatabase, JsMap.empty]⟩
  order := rfl
  few := Nat.zero_le _

/-- With a bound of at least one tombstone, and where no policy function is asked about a key that
every object has a function under, each call of a run answers alike in both stores, both hold the
same afterwards, and the counters of the database are right.
-/
theorem sqlite_refines_file {maxEventBytes : Nat} {maxStateTombstones : Int}
    (one : 1 ≤ maxStateTombstones) {state : StateFile} {db : Database}
    (start : Start maxStateTombstones state db) {calls : List Call}
    (plain : ∀ call ∈ calls, call.Plain)
    : (runCalls (fileCall (fileLimits maxEventBytes maxStateTombstones)) calls state).1
        = (runCalls (sqlCall (sqlLimits maxEventBytes maxStateTombstones)) calls db).1
      ∧ Agree (runCalls (fileCall (fileLimits maxEventBytes maxStateTombstones)) calls state).2
        (runCalls (sqlCall (sqlLimits maxEventBytes maxStateTombstones)) calls db).2
      ∧ (runCalls (sqlCall (sqlLimits maxEventBytes maxStateTombstones)) calls db).2.commit
        = db.commit + ((runCalls (sqlCall (sqlLimits maxEventBytes maxStateTombstones)) calls
          db).1.map commitsOf).sum := by
  have same : sqlLimits maxEventBytes maxStateTombstones
      = fileLimits maxEventBytes maxStateTombstones := by
    unfold sqlLimits fileLimits
    rw [max_eq_right one, max_eq_right (by omega)]
  have positive : 0 < (fileLimits maxEventBytes maxStateTombstones).maxStateTombstones := by
    change 0 < (max 1 maxStateTombstones).toNat
    omega
  have twin : Twin (fileLimits maxEventBytes maxStateTombstones).maxStateTombstones state db := by
    cases start with
    | empty => exact twin_empty _
    | imported canonical done =>
        obtain ⟨db', isDone, twin⟩ := import_twin canonical
        have bound : (max 0 maxStateTombstones).toNat = (max 1 maxStateTombstones).toNat := by
          omega
        rw [bound, isDone] at done
        obtain rfl := Except.ok.inj done
        exact twin
  rw [same]
  obtain ⟨answers, final, commits⟩ := run_alike positive plain twin
  exact ⟨answers, final.agree, commits⟩

/-- A note is put and deleted in both stores. -/
theorem sqlite_refines_file_note
    : Agree (runCalls (fileCall (fileLimits 100 1))
        [.put noteKey (some .null) .null none 7, .delete noteKey none] emptyState).2
        (runCalls (sqlCall (sqlLimits 100 1))
          [.put noteKey (some .null) .null none 7, .delete noteKey none] emptyDatabase).2 := by
  refine (sqlite_refines_file (by decide) .empty fun call member => ?_).2.1
  simp only [List.mem_cons, List.not_mem_nil, or_false] at member
  rcases member with rfl | rfl <;> trivial

/-- A batch that asks a function about the absent key `toString`. -/
def inheritedBatch : Call :=
  .batch 7 [.put (lit "toString") (.given (some .null)) .null (some (number 5))
    (.ask fun _ => .ok .skip)] fun _ => .ok []

/-- With the option 0 the file store keeps a tombstone and the SQLite store none; and a policy
function asked about the key `toString` is not even called by the file store.
-/
theorem stores_diverge
    : ((runCalls (fileCall (fileLimits 100 0))
          [.put noteKey (some .null) .null none 7, .delete noteKey none] emptyState).2.order
          = [noteKey]
        ∧ (runCalls (sqlCall (sqlLimits 100 0))
          [.put noteKey (some .null) .null none 7, .delete noteKey none]
          emptyDatabase).2.tombAll.map Prod.fst = [])
      ∧ (runCalls (fileCall (fileLimits 100 1)) [inheritedBatch] emptyState).1
          = [.error .unserializable]
      ∧ (runCalls (sqlCall (sqlLimits 100 1)) [inheritedBatch] emptyDatabase).1
          = [.ok (.results [{ key := lit "toString", applied := false, version := 0 }])] := by
  refine ⟨⟨rfl, ?_⟩, rfl, rfl⟩
  decide +kernel

end PiFabric.State
