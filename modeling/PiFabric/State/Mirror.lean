import PiFabric.State.Revisions
import PiFabric.State.Sqlite

/-! When a database holds what a state file holds, and that a put and a delete of one key keep it
so. The file orders its tombstones in a list, the database by their ordinals.
-/

namespace PiFabric.State

open JsString Sqlite

theorem storageRevision_number {value : Nat} (safe : value ≤ maxSafeInteger)
    : storageRevision (some (number value)) = .ok value := by
  simp only [storageRevision, number]
  rw [if_pos ⟨Int.natCast_nonneg value, by exact_mod_cast safe⟩, Int.toNat_natCast]

theorem entryRevision_entryJson {retained : JsMap JsString Json} {key : JsString}
    {value identity : Json} {version now : Nat} (positive : 0 < version)
    (safe : version ≤ maxSafeInteger) (agree : agrees retained key version = true)
    : entryRevision retained key (entryJson key value version now identity) = .ok version := by
  have apart : lit "key" ≠ lit "value" ∧ lit "key" ≠ lit "version" ∧ lit "key" ≠ lit "updatedAt"
      ∧ lit "key" ≠ lit "updatedBy" ∧ lit "version" ≠ lit "updatedAt"
      ∧ lit "version" ≠ lit "updatedBy" := by decide
  have named : Json.Members.get? "key" [(lit "key", .string key), (lit "value", value),
      (lit "version", number version), (lit "updatedAt", number now), (lit "updatedBy", identity)]
      = some (.string key) := by
    simp [Json.Members.get?, Json.field?, apart.1.symm, apart.2.1.symm, apart.2.2.1.symm,
      apart.2.2.2.1.symm]
  have versioned : Json.Members.get? "version" [(lit "key", .string key), (lit "value", value),
      (lit "version", number version), (lit "updatedAt", number now), (lit "updatedBy", identity)]
      = some (number version) := by
    simp [Json.Members.get?, Json.field?, apart.2.2.2.2.1.symm, apart.2.2.2.2.2.symm]
  simp only [entryRevision, entryJson, named, versioned]
  rw [if_pos (by simp [Json.strictEqual]), storageRevision_number safe]
  have refuses : (version = 0 || !agrees retained key version) = false := by
    simp [agree, positive.ne']
  simp only [bind, Except.bind, refuses]
  rfl

theorem exists_mapM_eq_ok {ε ι α : Type} {check : ι → Except ε α} {items : List ι}
    (all : ∀ item ∈ items, ∃ value, check item = .ok value)
    : ∃ values, items.mapM check = .ok values := by
  induction items with
  | nil => exact ⟨[], rfl⟩
  | cons item rest ih =>
      obtain ⟨value, first⟩ := all item List.mem_cons_self
      obtain ⟨values, others⟩ := ih fun other member => all other (List.mem_cons_of_mem _ member)
      refine ⟨value :: values, ?_⟩
      rw [List.mapM_cons, first, others]
      rfl

theorem foldl_max_le {values : List Nat} {start bound : Nat} (first : start ≤ bound)
    (all : ∀ value ∈ values, value ≤ bound)
    : values.foldl max start ≤ bound := by
  induction values generalizing start with
  | nil => exact first
  | cons value rest ih =>
      exact ih (max_le first (all value List.mem_cons_self)) fun other member =>
        all other (List.mem_cons_of_mem _ member)

theorem StateFile.clock_le {state : StateFile} {bound : Nat} (recorded : state.recorded ≤ bound)
    (retained : ∀ key revision, state.retained.get? key = some revision →
      revisionOf (some revision) ≤ bound)
    (entries : ∀ key entry, state.entries.get? key = some entry →
      revisionOf (Json.field? "version" entry) ≤ bound)
    : state.clock ≤ bound := by
  refine max_le recorded (foldl_max_le (Nat.zero_le _) fun value member => ?_)
  rcases List.mem_append.mp member with row | entry
  · obtain ⟨revision, listed, rfl⟩ := List.mem_map.mp row
    obtain ⟨entry, inside, rfl⟩ := List.mem_map.mp listed
    exact retained entry.1 entry.2 (JsMap.get?_eq_some_iff.mpr inside)
  · obtain ⟨item, inside, rfl⟩ := List.mem_map.mp entry
    exact entries item.1 item.2 (JsMap.get?_eq_some_iff.mpr inside)

/-- The database has the entries, the tombstones and the clock of the file. -/
structure Mirrors (state : StateFile) (db : Database) : Prop where
  protocol : checkProtocol state = .ok ()
  marked : ∀ recorded, state.highWater = some recorded →
    ∃ value, value ≤ maxSafeInteger ∧ recorded = number value
  clock : state.clock = db.highWater
  safe : db.highWater ≤ maxSafeInteger
  entries : ∀ key, state.entries.get? key = db.entry key
  positive : ∀ key row, db.kv.get? key = some row → 0 < row.version
  live : ∀ key row, db.kv.get? key = some row →
    state.retained.get? key = none ∨ state.retained.get? key = some (number row.version)
  dead : ∀ key, db.kv.get? key = none →
    state.retained.get? key = (db.tombstones.get? key).map fun row => number row.version
  apart : ∀ key row, db.kv.get? key = some row → db.tombstones.get? key = none

variable {state : StateFile} {db : Database} {key : JsString}

theorem Mirrors.has (h : Mirrors state db) (key : JsString)
    : state.entries.has key = (db.kv.get? key).isSome := by
  rw [has_eq_isSome, h.entries key, Database.entry, Option.isSome_map]

theorem Database.slot_present (db : Database) (key : JsString)
    : (db.slot key).present = (db.kv.get? key).isSome := by
  unfold Database.slot
  cases db.kv.get? key with
  | some row => rfl
  | none => cases db.tombstones.get? key <;> rfl

theorem Mirrors.versionOf (h : Mirrors state db) (key : JsString)
    : state.versionOf key = (db.slot key).version := by
  unfold Database.slot
  cases found : db.kv.get? key with
  | some row =>
      have entry := h.entries key
      rw [Database.entry, found] at entry
      rw [StateFile.versionOf_present entry]
      exact revisionOf_entryJson ..
  | none =>
      have entry := h.entries key
      rw [Database.entry, found] at entry
      rw [StateFile.versionOf_absent entry, h.dead key found]
      cases db.tombstones.get? key <;> rfl

theorem Mirrors.version_le (h : Mirrors state db) (key : JsString)
    : (db.slot key).version ≤ db.highWater := by
  rw [← h.versionOf key, ← h.clock]
  exact state.versionOf_le_clock key

theorem Mirrors.retained (h : Mirrors state db) {revision : Json}
    (found : state.retained.get? key = some revision)
    : revision = number (db.slot key).version := by
  unfold Database.slot
  cases row : db.kv.get? key with
  | some entry =>
      rcases h.live key entry row with none_ | same
      · rw [none_] at found
        cases found
      · exact Option.some.inj (found.symm.trans same)
  | none =>
      have same := h.dead key row
      rw [found] at same
      cases tombstone : db.tombstones.get? key with
      | none => simp [tombstone] at same
      | some buried =>
          rw [tombstone] at same
          exact Option.some.inj same

theorem Mirrors.entryRevision (h : Mirrors state db) {entry : Json}
    (found : state.entries.get? key = some entry)
    : entryRevision state.retained key entry = .ok (db.slot key).version := by
  have safe := (h.version_le key).trans h.safe
  have same := h.entries key
  rw [found, Database.entry] at same
  cases row : db.kv.get? key with
  | none => simp [row] at same
  | some stored =>
      rw [row] at same
      obtain rfl := Option.some.inj same
      have version : (db.slot key).version = stored.version := by
        unfold Database.slot
        rw [row]
      rw [version] at safe ⊢
      refine entryRevision_entryJson (h.positive key stored row) safe ?_
      unfold agrees
      rcases h.live key stored row with none_ | kept
      · rw [none_]
      · rw [kept]
        simp [Json.strictEqual, number]

theorem Mirrors.stateSlot (h : Mirrors state db) (key : JsString)
    : stateSlot state key = .ok {
        present := (db.slot key).present
        version := (db.slot key).version
        highWater := db.highWater
      } := by
  obtain ⟨rows, readRows⟩ : ∃ rows, (state.retained.values.mapM fun revision =>
      storageRevision (some revision)) = .ok rows := by
    refine exists_mapM_eq_ok fun revision member => ?_
    obtain ⟨entry, listed, rfl⟩ := List.mem_map.mp member
    rw [h.retained (JsMap.get?_eq_some_iff.mpr listed)]
    exact ⟨_, storageRevision_number ((h.version_le entry.1).trans h.safe)⟩
  obtain ⟨versions, readEntries⟩ : ∃ versions, (state.entries.entries.mapM fun entry =>
      State.entryRevision state.retained entry.1 entry.2) = .ok versions :=
    exists_mapM_eq_ok fun entry listed =>
      ⟨_, h.entryRevision (JsMap.get?_eq_some_iff.mpr listed)⟩
  obtain ⟨highWater, read⟩ : ∃ highWater,
      readClock state ((rows ++ versions).foldl max 0) = .ok highWater := by
    unfold readClock
    cases marked : state.highWater with
    | none => exact ⟨_, rfl⟩
    | some recorded =>
        obtain ⟨value, safe, rfl⟩ := h.marked recorded marked
        simp only [storageRevision_number safe]
        exact ⟨_, rfl⟩
  obtain ⟨version, found⟩ : ∃ version, readVersion state key = .ok version := by
    unfold readVersion
    cases entry : state.entries.get? key with
    | some value => exact ⟨_, h.entryRevision entry⟩
    | none =>
        cases kept : state.retained.get? key with
        | none => exact ⟨0, rfl⟩
        | some revision =>
            rw [h.retained kept]
            exact ⟨_, storageRevision_number ((h.version_le key).trans h.safe)⟩
  have answers : State.stateSlot state key
      = .ok { present := state.entries.has key, version, highWater } := by
    unfold State.stateSlot
    rw [readRows, readEntries, h.protocol]
    simp only [bind, Except.bind, read, found]
  obtain ⟨-, isVersion, isClock⟩ := stateSlot_eq answers
  simp only at isVersion isClock
  rw [answers, isVersion, isClock, h.versionOf key, h.clock, h.has key, Database.slot_present]

theorem parsed_bytes (value : Json) : parsed (Json.bytes value) = value := by
  unfold parsed
  rw [Json.ofBytes_bytes]
  rfl

theorem toEntry_of (key : JsString) (value identity : Json) (version now : Nat)
    : toEntry key (KvRow.of key value identity version now)
      = entryJson key value version now identity := by
  unfold toEntry KvRow.of
  rw [parsed_bytes, parsed_bytes]

theorem slot_tombstone (db : Database) (key : JsString)
    : (db.slot key).tombstone
      = ((db.kv.get? key).isNone && (db.tombstones.get? key).isSome) := by
  unfold Database.slot
  cases db.kv.get? key with
  | some row => rfl
  | none => cases db.tombstones.get? key <;> rfl

section Tables

variable (tx : Tx) (key : JsString) (value identity : Json) (version highWater now : Nat)
  (other : JsString)

theorem kv_applyPut
    : (applyPut tx (tx.db.slot key) key value identity version highWater now).db.kv.get? other
      = if other = key then some (KvRow.of key value identity version now)
        else tx.db.kv.get? other :=
  JsMap.get?_set ..

theorem tombstones_applyPut
    (apart : ∀ row, tx.db.kv.get? key = some row → tx.db.tombstones.get? key = none)
    : (applyPut tx (tx.db.slot key) key value identity version highWater
        now).db.tombstones.get? other
      = if other = key then none else tx.db.tombstones.get? other := by
  unfold applyPut
  simp only [slot_tombstone]
  split
  · exact JsMap.get?_delete ..
  · next clean =>
      split
      · next same =>
          subst same
          cases held : tx.db.kv.get? other with
          | some row => exact apart row held
          | none => simpa [held] using clean
      · rfl

theorem kv_applyDelete
    : (applyDelete tx (tx.db.slot key) key version highWater).db.kv.get? other
      = if other = key then none else tx.db.kv.get? other :=
  JsMap.get?_delete ..

theorem tombstones_applyDelete
    : (applyDelete tx (tx.db.slot key) key version highWater).db.tombstones.get? other
      = if other = key then some { version, ord := tx.db.tombstoneOrd + 1 }
        else tx.db.tombstones.get? other :=
  JsMap.get?_set ..

end Tables

theorem Mirrors.clock_write (h : Mirrors state db) {next : StateFile} {version : Nat}
    (below : version ≤ db.highWater + 1) (recorded : next.recorded = db.highWater + 1)
    (retained : ∀ other, next.retained.get? other
      = if other = key then some (number version) else state.retained.get? other)
    (versionOf : ∀ other, next.versionOf other
      = if other = key then version else state.versionOf other)
    : next.clock = db.highWater + 1 := by
  refine le_antisymm (StateFile.clock_le recorded.le (fun other revision found => ?_)
    fun other entry found => ?_) (recorded.ge.trans (StateFile.recorded_le_clock _))
  · rw [retained] at found
    split at found
    · obtain rfl := Option.some.inj found
      exact below
    · rw [h.retained found]
      exact (h.version_le other).trans (Nat.le_succ _)
  · rw [← StateFile.versionOf_present found, versionOf]
    split
    · exact below
    · rw [h.versionOf]
      exact (h.version_le other).trans (Nat.le_succ _)

/-- A put that both stores make keeps them alike. -/
theorem Mirrors.store (h : Mirrors state db) {tx : Tx} (isDb : tx.db = db) {version : Nat}
    (positive : 0 < version) (below : version ≤ db.highWater + 1)
    (room : db.highWater < maxSafeInteger) (value identity : Json) (now : Nat)
    : Mirrors (state.store key value identity version (db.highWater + 1) now)
        (applyPut tx (db.slot key) key value identity version (db.highWater + 1) now).db := by
  subst isDb
  have tombstones (other : JsString) := tombstones_applyPut tx key value identity version
    (tx.db.highWater + 1) now other (h.apart key)
  refine ⟨rfl, ?_, h.clock_write below rfl (fun _ => StateFile.retained_store ..)
    fun _ => StateFile.store_versionOf .., room, fun other => ?_, fun other row found => ?_,
    fun other row found => ?_, fun other found => ?_, fun other row found => ?_⟩
  · rintro recorded ⟨rfl⟩
    exact ⟨_, room, rfl⟩
  · rw [StateFile.entries_store, Database.entry, kv_applyPut]
    split
    · next same =>
        subst same
        exact congrArg some (toEntry_of ..).symm
    · exact h.entries other
  all_goals
    rw [kv_applyPut] at found
    split at found
  · obtain rfl := Option.some.inj found
    exact positive
  · exact h.positive other row found
  · next same =>
      obtain rfl := Option.some.inj found
      rw [StateFile.retained_store, if_pos same]
      exact .inr rfl
  · next apart =>
      rw [StateFile.retained_store, if_neg apart]
      exact h.live other row found
  · cases found
  · next apart =>
      rw [StateFile.retained_store, if_neg apart, tombstones, if_neg apart]
      exact h.dead other found
  · next same => rw [tombstones, if_pos same]
  · next apart =>
      rw [tombstones, if_neg apart]
      exact h.apart other row found

/-- A delete that both stores make keeps them alike. -/
theorem Mirrors.bury (h : Mirrors state db) {tx : Tx} (isDb : tx.db = db) {version : Nat}
    (below : version ≤ db.highWater + 1) (room : db.highWater < maxSafeInteger)
    : Mirrors (state.bury key version (db.highWater + 1))
        (applyDelete tx (db.slot key) key version (db.highWater + 1)).db := by
  subst isDb
  refine ⟨rfl, ?_, h.clock_write below rfl (fun _ => StateFile.retained_bury ..)
    fun _ => StateFile.bury_versionOf .., room, fun other => ?_, fun other row found => ?_,
    fun other row found => ?_, fun other found => ?_, fun other row found => ?_⟩
  · rintro recorded ⟨rfl⟩
    exact ⟨_, room, rfl⟩
  · rw [StateFile.entries_bury, Database.entry, kv_applyDelete]
    split
    · rfl
    · exact h.entries other
  all_goals
    rw [kv_applyDelete] at found
    split at found
  · cases found
  · exact h.positive other row found
  · cases found
  · next apart =>
      rw [StateFile.retained_bury, if_neg apart]
      exact h.live other row found
  · next same =>
      rw [StateFile.retained_bury, if_pos same, tombstones_applyDelete, if_pos same]
      rfl
  · next apart =>
      rw [StateFile.retained_bury, if_neg apart, tombstones_applyDelete, if_neg apart]
      exact h.dead other found
  · cases found
  · next apart =>
      rw [tombstones_applyDelete, if_neg apart]
      exact h.apart other row found

end PiFabric.State
