import PiFabric.Foundation.Ordinals
import PiFabric.State.Mirror

/-! The counters of the database, and the eviction of its oldest tombstones, which is what the
file's compaction leaves of its list.
-/

namespace PiFabric.State

open JsString Sqlite Ordinals

def ordOf (row : JsString × Tombstone) : Nat :=
  row.2.ord

/-- The running counters are what the tables say. -/
structure Accounts (db : Database) : Prop where
  stateBytes : db.stateBytes = db.kv.weigh (fun _ row => row.bytes)
    + db.tombstones.weigh fun key _ => tombstoneBytes key
  rising : Rising ordOf db.tombstones.entries
  below : ∀ row ∈ db.tombstones.entries, row.2.ord ≤ db.tombstoneOrd

variable {state : StateFile} {db : Database} {key : JsString} {order : List JsString}

theorem slot_bytes (db : Database) (key : JsString)
    : ((db.slot key).bytes : Int) = ((db.kv.get? key).map fun row => (row.bytes : Int)).getD 0 := by
  unfold Database.slot
  cases db.kv.get? key with
  | some row => rfl
  | none => cases db.tombstones.get? key <;> rfl

theorem Accounts.applyPut (h : Accounts db) (mirrors : Mirrors state db) {tx : Tx}
    (isDb : tx.db = db) (value identity : Json) (version highWater now : Nat)
    : Accounts (applyPut tx (db.slot key) key value identity version highWater now).db := by
  subst isDb
  have kv := JsMap.weigh_set (fun _ row => (row.bytes : Int)) tx.db.kv key
    (KvRow.of key value identity version now)
  rw [← slot_bytes] at kv
  unfold Sqlite.applyPut
  by_cases buried : (tx.db.slot key).tombstone = true
  · have found : (tx.db.tombstones.get? key).isSome = true := by
      rw [slot_tombstone] at buried
      exact (Bool.and_eq_true_iff.mp buried).2
    obtain ⟨row, found⟩ := Option.isSome_iff_exists.mp found
    have tombstones := JsMap.weigh_delete (fun key _ => (tombstoneBytes key : Int))
      tx.db.tombstones key
    rw [found, Option.map_some, Option.getD_some] at tombstones
    simp only [buried, if_true]
    refine ⟨?_, h.rising.sublist List.filter_sublist, fun row member =>
      h.below row (List.mem_of_mem_filter member)⟩
    simp only [kv, tombstones, h.stateBytes]
    omega
  · simp only [buried, Bool.false_eq_true, if_false]
    refine ⟨?_, h.rising, h.below⟩
    simp only [kv, h.stateBytes]
    omega

/-- A live key has no tombstone, so its delete appends one. -/
theorem Mirrors.no_tombstone (h : Mirrors state db) (present : (db.slot key).present = true)
    : key ∉ db.tombstones.keys := by
  rw [Database.slot_present] at present
  obtain ⟨row, found⟩ := Option.isSome_iff_exists.mp present
  exact JsMap.get?_eq_none_iff.mp (h.apart key row found)

/-- A new tombstone gets the last ordinal. -/
theorem Accounts.appended (h : Accounts db) (absent : key ∉ db.tombstones.keys) (version : Nat)
    : Rising ordOf (db.tombstones.set key { version, ord := db.tombstoneOrd + 1 }).entries
      ∧ ∀ row ∈ (db.tombstones.set key { version, ord := db.tombstoneOrd + 1 }).entries,
        ordOf row ≤ db.tombstoneOrd + 1 := by
  have entries : (db.tombstones.set key { version, ord := db.tombstoneOrd + 1 }).entries
      = db.tombstones.entries ++ [(key, { version, ord := db.tombstoneOrd + 1 })] :=
    JsMap.setEntries_absent absent
  rw [entries]
  refine ⟨List.pairwise_append.mpr ⟨h.rising, List.pairwise_singleton .., ?_⟩, ?_⟩
  · intro row member last isLast
    obtain rfl := List.mem_singleton.mp isLast
    exact Nat.lt_succ_of_le (h.below row member)
  · intro row member
    rcases List.mem_append.mp member with old | last
    · exact (h.below row old).trans (Nat.le_succ _)
    · rw [List.mem_singleton.mp last]
      exact Nat.le_refl _

theorem Accounts.applyDelete (h : Accounts db) (mirrors : Mirrors state db) {tx : Tx}
    (isDb : tx.db = db) (present : (db.slot key).present = true) (version highWater : Nat)
    : Accounts (applyDelete tx (db.slot key) key version highWater).db := by
  subst isDb
  have absent := mirrors.no_tombstone present
  have none_ : tx.db.tombstones.get? key = none := JsMap.get?_eq_none_iff.mpr absent
  have live : (tx.db.slot key).tombstone = false := by
    rw [slot_tombstone, none_]
    simp
  have kv := JsMap.weigh_delete (fun _ row => (row.bytes : Int)) tx.db.kv key
  rw [← slot_bytes] at kv
  have tombstones := JsMap.weigh_set (fun key _ => (tombstoneBytes key : Int)) tx.db.tombstones key
    { version, ord := tx.db.tombstoneOrd + 1 }
  rw [none_] at tombstones
  obtain ⟨rising, below⟩ := h.appended absent version
  refine ⟨?_, rising, below⟩
  unfold Sqlite.applyDelete
  simp only [kv, tombstones, h.stateBytes, live, Bool.false_eq_true, if_false, Option.map_none,
    Option.getD_none]
  omega

/-- The ordinal at an offset below the last is that of the row as far from the end. -/
theorem Accounts.tombCutoff (h : Accounts db) {offset : Nat}
    (inside : offset < db.tombstones.size)
    : ∃ row, db.tombstones.entries[db.tombstones.size - offset - 1]? = some row
      ∧ db.tombCutoff offset = some row.2.ord := by
  have inside' : offset < db.tombstones.entries.length := inside
  have at_ : db.tombstones.size - offset - 1 < db.tombstones.entries.length := by
    unfold JsMap.size
    omega
  refine ⟨db.tombstones.entries[db.tombstones.size - offset - 1],
    List.getElem?_eq_getElem at_, ?_⟩
  unfold Database.tombCutoff
  rw [show (db.tombstones.entries.map fun row => row.2.ord) = db.tombstones.entries.map ordOf
    from rfl, mergeSort_descending h.rising, List.getElem?_reverse (by simpa using inside'),
    List.length_map, List.getElem?_map]
  have same : db.tombstones.entries.length - 1 - offset
      = db.tombstones.size - offset - 1 := by
    unfold JsMap.size
    omega
  rw [same, List.getElem?_eq_getElem at_]
  rfl

/-- What passes a test and what fails it weigh together as much as all. -/
theorem sum_filter_add {ρ : Type} (weight : ρ → Int) (test : ρ → Bool) (rows : List ρ)
    : ((rows.filter fun row => !test row).map weight).sum + ((rows.filter test).map weight).sum
      = (rows.map weight).sum := by
  induction rows with
  | nil => rfl
  | cons row rest ih =>
      cases passes : test row with
      | true =>
          simp only [List.filter_cons, passes, Bool.not_true, Bool.false_eq_true, if_false, if_true,
            List.map_cons, List.sum_cons]
          omega
      | false =>
          simp only [List.filter_cons, passes, Bool.not_false, Bool.false_eq_true, if_false,
            if_true, List.map_cons, List.sum_cons]
          omega

/-- A transaction that buried nothing has no tombstone too many. -/
def Bounded (maxTombstones : Nat) (tx : Tx) : Prop :=
  tx.deleted = false → tx.db.tombstones.size ≤ maxTombstones

/-- What a commit leaves: the newest tombstones, up to the limit. -/
structure Finished (maxTombstones : Nat) (db db' : Database) : Prop where
  kv : db'.kv = db.kv
  tombstones : db'.tombstones.entries
    = db.tombstones.entries.drop (db.tombstones.size - maxTombstones)
  highWater : db'.highWater = db.highWater
  accounts : Accounts db'
  commit : db'.commit = db.commit + 1

theorem Accounts.finish (maxTombstones : Nat) {tx : Tx} (h : Accounts tx.db)
    (bounded : Bounded maxTombstones tx)
    : Finished maxTombstones tx.db (finish maxTombstones tx) := by
  unfold Sqlite.finish
  by_cases evicts : tx.deleted ∧ maxTombstones < tx.db.tombstones.size
  · obtain ⟨row, at_, cutoff⟩ := h.tombCutoff evicts.2
    have next : tx.db.tombstones.size - maxTombstones - 1 + 1
        = tx.db.tombstones.size - maxTombstones := by omega
    have kept : (tx.db.tombstones.filter fun _ other => !(other.ord ≤ row.2.ord : Bool)).entries
        = tx.db.tombstones.entries.drop (tx.db.tombstones.size - maxTombstones) :=
      next ▸ filter_above h.rising at_
    rw [if_pos evicts, cutoff]
    refine ⟨rfl, kept, rfl, ⟨?_, ?_, fun other member => ?_⟩, rfl⟩
    · have split := sum_filter_add
        (fun other : JsString × Tombstone => (tombstoneBytes other.1 : Int))
        (fun other => other.2.ord ≤ row.2.ord) tx.db.tombstones.entries
      simp only [evict, h.stateBytes, JsMap.weigh, JsMap.filter]
      omega
    · exact kept ▸ h.rising.drop _
    · exact h.below other (List.mem_of_mem_filter member)
  · have few : tx.db.tombstones.size - maxTombstones = 0 := by
      by_cases deleted : tx.deleted = true
      · have le : ¬maxTombstones < tx.db.tombstones.size := fun more => evicts ⟨deleted, more⟩
        omega
      · have le := bounded (by simpa using deleted)
        omega
    rw [if_neg evicts]
    exact ⟨rfl, by rw [few, List.drop_zero], rfl, ⟨h.stateBytes, h.rising, h.below⟩, rfl⟩

theorem mem_of_mem_objectKeys {ν : Type} {map : JsMap JsString ν}
    (member : key ∈ objectKeys map)
    : key ∈ map.keys := by
  unfold objectKeys enumerated at member
  rcases List.mem_append.mp member with index | other
  · exact List.mem_of_mem_filter ((List.mem_insertionSort _).mp index)
  · exact List.mem_of_mem_filter other

/-- A tombstone of the database is one of the file. -/
theorem Mirrors.buried (h : Mirrors state db) (member : key ∈ db.tombstones.keys)
    : state.entries.has key = false ∧ state.retained.has key = true := by
  have found : ∃ row, db.tombstones.get? key = some row := by
    by_contra none_
    rw [← Option.isSome_iff_exists, Option.not_isSome_iff_eq_none] at none_
    exact JsMap.get?_eq_none_iff.mp none_ member
  obtain ⟨row, found⟩ := found
  have absent : db.kv.get? key = none := by
    cases live : db.kv.get? key with
    | none => rfl
    | some entry =>
        rw [h.apart key entry live] at found
        cases found
  refine ⟨by rw [h.has, absent]; rfl, ?_⟩
  rw [has_eq_isSome, h.dead key absent, found]
  rfl

/-- The recorded order of the file is the order of the database, and nothing is missing from it. -/
theorem Mirrors.orderedTombstones (h : Mirrors state db) (isOrder : order = db.tombstones.keys)
    : orderedTombstones { state with tombstoneOrder := some order } = order := by
  subst isOrder
  have all : (db.tombstones.keys.filter fun key =>
      !state.entries.has key && state.retained.has key) = db.tombstones.keys := by
    refine List.filter_eq_self.mpr fun key member => ?_
    obtain ⟨dead, kept⟩ := h.buried member
    simp [dead, kept]
  have recorded : (db.tombstones.keys.filter fun key =>
      !state.entries.has key && state.retained.has key).eraseDups = db.tombstones.keys := by
    rw [all]
    exact eraseDups_of_nodup db.tombstones.distinct
  have others : ((objectKeys state.retained).filter fun key =>
      !state.entries.has key && !db.tombstones.keys.contains key) = [] := by
    refine List.filter_eq_nil_iff.mpr fun key member => ?_
    have kept := mem_of_mem_objectKeys member
    simp only [Bool.and_eq_true, Bool.not_eq_true', List.contains_eq_mem, decide_eq_false_iff_not,
      not_and, not_not]
    intro dead
    have absent : db.kv.get? key = none := by
      rw [h.has] at dead
      exact Option.not_isSome_iff_eq_none.mp (by simp [dead])
    by_contra missing
    have none_ := h.dead key absent
    rw [JsMap.get?_eq_none_iff.mpr missing] at none_
    exact JsMap.get?_eq_none_iff.mp none_ kept
  unfold State.orderedTombstones
  change (db.tombstones.keys.filter fun key =>
      !state.entries.has key && state.retained.has key).eraseDups
    ++ (objectKeys state.retained).filter (fun key => !state.entries.has key
      && !((db.tombstones.keys.filter fun key =>
        !state.entries.has key && state.retained.has key).eraseDups).contains key) = _
  rw [recorded, others, List.append_nil]

theorem get?_of_entries_drop {ν : Type} {map map' : JsMap JsString ν} {count : Nat}
    (dropped : map'.entries = map.entries.drop count) (key : JsString)
    : map'.get? key = if key ∈ map.keys.drop count then map.get? key else none := by
  have keys : map'.keys = map.keys.drop count := by
    unfold JsMap.keys
    rw [dropped, List.map_drop]
  by_cases member : key ∈ map.keys.drop count
  · rw [if_pos member]
    rw [← keys] at member
    obtain ⟨⟨_, value⟩, inside, rfl⟩ := List.mem_map.mp member
    have outside : (_, value) ∈ map.entries := List.mem_of_mem_drop (dropped ▸ inside)
    rw [JsMap.get?_eq_some_iff.mpr inside, JsMap.get?_eq_some_iff.mpr outside]
  · rw [if_neg member]
    exact JsMap.get?_eq_none_iff.mpr (keys ▸ member)

/-- What the file's compaction leaves mirrors what a commit leaves. -/
theorem Mirrors.compact (h : Mirrors state db) (isOrder : order = db.tombstones.keys)
    (stamped : state.recorded = db.highWater) {maxTombstones : Nat} (positive : 0 < maxTombstones)
    {db' : Database} (finished : Finished maxTombstones db db')
    : Mirrors (compactStateTombstones maxTombstones { state with tombstoneOrder := some order }) db'
      ∧ (compactStateTombstones maxTombstones
          { state with tombstoneOrder := some order }).order = db'.tombstones.keys := by
  have size : order.length = db.tombstones.size := by
    rw [isOrder]
    exact List.length_map ..
  have kept : sliceLast maxTombstones
      (State.orderedTombstones { state with tombstoneOrder := some order })
      = db.tombstones.keys.drop (db.tombstones.size - maxTombstones) := by
    rw [h.orderedTombstones isOrder, sliceLast, if_neg (by omega), size, isOrder]
  have retained (key : JsString) : (compactStateTombstones maxTombstones
      { state with tombstoneOrder := some order }).retained.get? key
      = (state.retained.get? key).filter fun _ => state.entries.has key
        || (db.tombstones.keys.drop (db.tombstones.size - maxTombstones)).contains key := by
    rw [← kept]
    exact JsMap.get?_filter state.retained (fun key _ => state.entries.has key
      || (sliceLast maxTombstones (State.orderedTombstones
        { state with tombstoneOrder := some order })).contains key) key
  have entry (key : JsString) : db'.entry key = db.entry key := by
    unfold Database.entry
    rw [finished.kv]
  have keys : db'.tombstones.keys
      = db.tombstones.keys.drop (db.tombstones.size - maxTombstones) := by
    unfold JsMap.keys
    rw [finished.tombstones, List.map_drop]
  have recorded : (compactStateTombstones maxTombstones
      { state with tombstoneOrder := some order }).recorded = db.highWater := stamped
  refine ⟨⟨h.protocol, h.marked, ?_, finished.highWater ▸ h.safe, fun key => ?_,
    fun key row found => ?_, fun key row found => ?_, fun key found => ?_,
    fun key row found => ?_⟩, kept.trans keys.symm⟩
  · rw [finished.highWater]
    refine le_antisymm (StateFile.clock_le recorded.le (fun key revision found => ?_)
      fun key entry found => ?_) (recorded.ge.trans (StateFile.recorded_le_clock _))
    · rw [retained, Option.filter_eq_some_iff] at found
      rw [h.retained found.1]
      exact h.version_le key
    · have found : state.entries.get? key = some entry := found
      rw [← StateFile.versionOf_present found, h.versionOf]
      exact h.version_le key
  · rw [entry]
    exact h.entries key
  · rw [finished.kv] at found
    exact h.positive key row found
  · rw [finished.kv] at found
    rw [retained, h.has, found]
    rcases h.live key row found with none_ | same
    · rw [none_]
      exact .inl rfl
    · rw [same]
      exact .inr rfl
  · rw [finished.kv] at found
    rw [retained, h.has, found, h.dead key found, get?_of_entries_drop finished.tombstones]
    by_cases member : key ∈ db.tombstones.keys.drop (db.tombstones.size - maxTombstones)
    · rw [if_pos member]
      cases db.tombstones.get? key <;> simp [member]
    · rw [if_neg member]
      cases db.tombstones.get? key <;> simp [member]
  · rw [finished.kv] at found
    rw [get?_of_entries_drop finished.tombstones, h.apart key row found, ite_self]

end PiFabric.State
