import PiFabric.Delta.Apply

/-! Refreshing a snapshot, from any one that was obtained earlier: the result is the full snapshot
of the database that its transaction saw.
-/

namespace PiFabric.Delta

open JsString SortedMerge
open State.Sqlite (Database)

variable {compare : JsString → JsString → Ordering} {occurs : JsString → Prop}
  {storeId : JsString} {store : SqliteStateStore}

/-- Snapshots that show the same: their maps hold the same, in whatever order. -/
structure SameSnapshot (left right : SqliteSnapshot) : Prop where
  stamp : left.stamp = right.stamp
  lineage : left.lineage = right.lineage
  commit : left.commit = right.commit
  entries : ∀ key, left.entries.get? key = right.entries.get? key
  sorted : left.sorted = right.sorted
  versions : ∀ key, left.versions.get? key = right.versions.get? key

variable {db : StateDatabase}

theorem Depicts.same (order : TotalOn compare occurs) {left right : SqliteSnapshot}
    (hl : Depicts compare storeId left db) (hr : Depicts compare storeId right db)
    (named : Named occurs db)
    : SameSnapshot left right := by
  have stamps := hl.stamp.trans hr.stamp.symm
  have entries (key : JsString) := (hl.entries key).trans (hr.entries key).symm
  refine ⟨stamps, ?_, hl.commit.trans hr.commit.symm, entries, ?_, fun key =>
    (hl.versions key).trans (hr.versions key).symm⟩
  · rw [hl.lineage, hr.lineage, stamps]
  · refine Strict.eq_of_mem_iff order hl.strict hr.strict (fun entry member => ?_) fun entry => ?_
    · rw [hr.members, hr.entries] at member
      obtain ⟨row, kv, _⟩ := Option.map_eq_some_iff.mp member
      exact named entry.key row kv
    · rw [hl.members, hr.members, entries]

theorem depicts_of_exportLive (order : TotalOn compare occurs) (named : Named occurs db)
    (opened : store.storeId = storeId) {snapshot : SqliteSnapshot} {seen : StateDatabase}
    (read : (exportLive store db).map (fun read => (fullSnapshot compare read.1 read.2, db))
      = .ok (snapshot, seen))
    : seen = db ∧ store.live db ∧ Depicts compare storeId snapshot db := by
  rw [exportLive, assertLive] at read
  split at read
  · next live =>
      obtain ⟨rfl, rfl⟩ := Prod.mk.inj (Except.ok.inj read)
      exact ⟨rfl, live, opened ▸ depicts_fullSnapshot order named⟩
  · cases read

variable {before first second seen : StateDatabase} {base snapshot : SqliteSnapshot}

/-- A feed whose first rows were trimmed is found out. -/
theorem Since.changed {tables : Database} {after : Nat} (since : Since tables db.tables db.changes)
    (same : tables.commit = after)
    (covered : ¬(after < db.tables.commit ∧ isTrimmed db after = true))
    : Changed tables db.tables (keysAfter after db.changes) := by
  subst same
  rcases since with ⟨later, late⟩ | changed
  · refine absurd ⟨later, ?_⟩ covered
    rw [isTrimmed]
    cases oldest : (db.changes.map (·.commit)).min? with
    | none => rfl
    | some commit =>
        obtain ⟨row, member, rfl⟩ := List.mem_map.mp (List.min?_mem oldest)
        exact decide_eq_true (late row member)
  · exact changed

theorem readDelta_complete {after : Nat} {predict : List SqliteDeltaKey → Int}
    {delta : SqliteStateDelta} (read : readDelta store after predict db = .ok delta)
    (complete : delta.complete = true)
    : store.live db ∧ after ≤ db.tables.commit
      ∧ ¬(after < db.tables.commit ∧ isTrimmed db after = true)
      ∧ ∃ keys, keys = (if after < db.tables.commit then changedKeys db after else [])
        ∧ delta = {
          stamp := stampOf store.storeId db.epoch db.tables.commit
          commit := db.tables.commit
          complete := true
          changed := keys.map (deltaKey db)
          tombstones :=
            if (db.tables.tombstones.size : Int) = predict (keys.map (deltaKey db)) then none
            else some (db.tables.tombAll.map fun item => (item.1, item.2.version)) } := by
  rw [readDelta, assertLive] at read
  split at read
  · next live =>
      obtain rfl := Except.ok.inj read
      by_cases reached : db.tables.commit < after
      · rw [if_pos reached] at complete
        cases complete
      · by_cases trimmed : after < db.tables.commit ∧ isTrimmed db after = true
        · rw [if_neg reached, if_pos trimmed] at complete
          cases complete
        · exact ⟨live, Nat.not_lt.mp reached, trimmed, _, rfl, by
            rw [if_neg reached, if_neg trimmed]⟩
  · cases read

theorem depicts_of_refresh (order : TotalOn compare occurs)
    (depicts : Depicts compare storeId base before) (formed : WellFormed before)
    (live : before.backend = lit "sqlite") (namedBefore : Named occurs before)
    (opened : store.storeId = storeId) (later : History before first)
    (named : Named occurs first) (namedSecond : Named occurs second)
    (read : refreshSnapshot compare store (some base) first second = .ok (snapshot, seen))
    : (seen = first ∨ seen = second) ∧ store.live seen ∧ Depicts compare storeId snapshot seen := by
  rw [refreshSnapshot] at read
  split at read
  · cases read
  · next delta found =>
      split at read
      · next usable =>
          obtain ⟨rfl, rfl⟩ := Prod.mk.inj (Except.ok.inj read)
          obtain ⟨alive, reached, covered, keys, listed, rfl⟩ := readDelta_complete found usable.1
          have formedNow := (later.formed formed).1
          have lineage := usable.2
          rw [depicts.lineage, depicts.stamp, ← opened] at lineage
          have epoch : first.epoch = before.epoch := lineageOf_stampOf_inj lineage
          have follows := (later.follows live formed).resolve_right (by omega)
          have changed := follows.since.changed depicts.commit.symm covered
          have same : ∀ key, key ∈ keys ↔ key ∈ keysAfter base.commit first.changes := by
            intro key
            rw [listed]
            split
            · rw [changedKeys, List.mem_eraseDups]
            · have all : base.commit = first.tables.commit := by omega
              rw [all, formedNow.keysAfter_eq_nil]
          have distinct : keys.Nodup := by
            rw [listed]
            split
            · exact Ordinals.nodup_eraseDups _
            · exact List.nodup_nil
          subst opened
          exact ⟨Or.inl rfl, alive, depicts.apply order formed.sound formedNow.sound namedBefore
            named (changed.congr same) distinct rfl⟩
      · obtain ⟨rfl, alive, known⟩ := depicts_of_exportLive order namedSecond opened read
        exact ⟨Or.inr rfl, alive, known⟩

/-- What the readers of a state database have obtained, each from its own base or from none, with
the database that the transaction of the snapshot saw. Stores of one process may share a base.
-/
inductive Obtained (compare : JsString → JsString → Ordering) (occurs : JsString → Prop)
    (storeId : JsString)
    : Option SqliteSnapshot → StateDatabase → Prop
  | none {db : StateDatabase} (history : History (freshDatabase storeId) db)
    : Obtained compare occurs storeId none db
  | refreshed {store : SqliteStateStore} {base : Option SqliteSnapshot}
      {before first second seen : StateDatabase} {snapshot : SqliteSnapshot}
      (earlier : Obtained compare occurs storeId base before) (later : History before first)
      (last : History first second) (named : Named occurs first) (namedSecond : Named occurs second)
      (opened : store.storeId = storeId)
      (read : refreshSnapshot compare store base first second = .ok (snapshot, seen))
    : Obtained compare occurs storeId (some snapshot) seen

/-- What is known of an obtained snapshot. -/
structure Known (compare : JsString → JsString → Ordering) (occurs : JsString → Prop)
    (storeId : JsString) (base : Option SqliteSnapshot) (db : StateDatabase)
    : Prop where
  formed : WellFormed db
  live : base.isSome = true → db.backend = lit "sqlite"
  named : base.isSome = true → Named occurs db
  depicts : ∀ snapshot, base = some snapshot → Depicts compare storeId snapshot db

theorem formed_freshDatabase (storeId : JsString) : WellFormed (freshDatabase storeId) :=
  ⟨⟨fun _ _ held => (by cases held), fun _ _ held => (by cases held)⟩,
    fun _ member => (by cases member)⟩

/-- A refresh from what is known gives a snapshot that depicts the database it saw. -/
theorem Known.refresh (order : TotalOn compare occurs) {base : Option SqliteSnapshot}
    (known : Known compare occurs storeId base before) (later : History before first)
    (named : Named occurs first) (namedSecond : Named occurs second)
    (opened : store.storeId = storeId)
    (read : refreshSnapshot compare store base first second = .ok (snapshot, seen))
    : (seen = first ∨ seen = second) ∧ store.live seen ∧ Depicts compare storeId snapshot seen := by
  cases base with
  | none =>
      obtain ⟨rfl, alive, depicts⟩ := depicts_of_exportLive order namedSecond opened read
      exact ⟨Or.inr rfl, alive, depicts⟩
  | some base =>
      exact depicts_of_refresh order (known.depicts base rfl) known.formed (known.live rfl)
        (known.named rfl) opened later named namedSecond read

/-- Every obtained snapshot depicts the database that its transaction saw, by induction over the
refreshes.
-/
theorem Obtained.known (order : TotalOn compare occurs) {base : Option SqliteSnapshot}
    (obtained : Obtained compare occurs storeId base before)
    : Known compare occurs storeId base before := by
  induction obtained with
  | none history => exact ⟨(history.formed (formed_freshDatabase storeId)).1, nofun, nofun, nofun⟩
  | refreshed earlier later last named namedSecond opened read ih =>
      obtain ⟨which, alive, depicts⟩ := ih.refresh order later named namedSecond opened read
      have formedFirst := (later.formed ih.formed).1
      refine ⟨?_, fun _ => alive.1, fun _ => ?_, fun other same => Option.some.inj same ▸ depicts⟩
      · rcases which with rfl | rfl
        · exact formedFirst
        · exact (last.formed formedFirst).1
      · rcases which with rfl | rfl
        · exact named
        · exact namedSecond

/-- A refresh that returns gives the full snapshot of the database that its transaction saw,
whatever was committed since the base was obtained.
-/
theorem refreshSnapshot_is_full (order : TotalOn compare occurs) {base : Option SqliteSnapshot}
    (obtained : Obtained compare occurs storeId base before) (later : History before first)
    (last : History first second) (named : Named occurs first)
    (namedSecond : Named occurs second) (opened : store.storeId = storeId)
    (read : refreshSnapshot compare store base first second = .ok (snapshot, seen))
    : (seen = first ∨ seen = second) ∧ store.live seen
      ∧ SameSnapshot snapshot
        (fullSnapshot compare (stampOf storeId seen.epoch seen.tables.commit) (exportState seen)) := by
  obtain ⟨which, alive, depicts⟩ :=
    (obtained.known order).refresh order later named namedSecond opened read
  have namedSeen : Named occurs seen := by
    rcases which with rfl | rfl
    · exact named
    · exact namedSecond
  exact ⟨which, alive, depicts.same order (depicts_fullSnapshot order namedSeen) namedSeen⟩

/-- A store of a database that was just made. -/
def sampleStore : SqliteStateStore where
  storeId := lit "s"
  epoch := 1
  maxTombstones := 8
  changesRetained := 1024

def samplePut : State.Sqlite.Tx :=
  State.Sqlite.applyPut (State.Sqlite.begin_ State.Sqlite.emptyDatabase)
    (State.Sqlite.emptyDatabase.slot (lit "a")) (lit "a") .null .null 1 1 5

def putDatabase : StateDatabase :=
  commitWrite sampleStore (freshDatabase (lit "s")) samplePut false

def sampleSnapshot : SqliteSnapshot :=
  fullSnapshot (fun _ _ => .eq) (stampOf (lit "s") 1 0) (exportState (freshDatabase (lit "s")))

/-- A snapshot from before a put is brought forward by its row. -/
theorem refreshSnapshot_is_full_after_put
    : ∃ snapshot, refreshSnapshot (fun _ _ => .eq) sampleStore (some sampleSnapshot) putDatabase
        putDatabase = .ok (snapshot, putDatabase)
      ∧ SameSnapshot snapshot (fullSnapshot (fun _ _ => .eq)
        (stampOf (lit "s") putDatabase.epoch putDatabase.tables.commit)
        (exportState putDatabase)) := by
  have order : TotalOn (fun _ _ => .eq) fun key => key = lit "a" :=
    ⟨fun hl hr => iff_of_true rfl (hl.trans hr.symm), fun _ _ => rfl, fun _ _ _ one => by cases one⟩
  have put : Step (freshDatabase (lit "s")) putDatabase :=
    @Step.write _ sampleStore samplePut (by decide) (@Body.put _ _ (lit "a") none
      (.put .null .null) .null .null 1 1 .begun rfl 5)
  have empty : Named (fun key => key = lit "a") (freshDatabase (lit "s")) :=
    fun _ _ held => by cases held
  have named : Named (fun key => key = lit "a") putDatabase := by
    intro key row held
    have bound : putDatabase.tables.kv.get? key = if key = lit "a" then _ else none :=
      JsMap.get?_set _ _ _ key
    rw [bound] at held
    split at held
    · assumption
    · cases held
  have obtained : Obtained (fun _ _ => .eq) (fun key => key = lit "a") (lit "s")
      (some sampleSnapshot) (freshDatabase (lit "s")) :=
    @Obtained.refreshed _ _ _ sampleStore none (freshDatabase (lit "s")) (freshDatabase (lit "s"))
      (freshDatabase (lit "s")) _ _ (.none .refl) .refl .refl empty empty rfl rfl
  have read : refreshSnapshot (fun _ _ => .eq) sampleStore (some sampleSnapshot) putDatabase
      putDatabase = .ok (_, putDatabase) := rfl
  exact ⟨_, read, (refreshSnapshot_is_full order obtained (.step .refl put) .refl named named rfl
    read).2.2⟩

end PiFabric.Delta
