import PiFabric.Delta.Snapshot
import PiFabric.Foundation.JsonRoundTrip

/-! A snapshot that is brought forward equals the full rebuild of the database that its transaction
saw: the changed keys are read again, a tombstone that went without a row shows in their number, and
the merge is the sort of the new entries.
-/

namespace PiFabric.Delta

open JsString SortedMerge
open State (has_eq_isSome)
open State.Sqlite (Database)

/-- The lineage is the stamp without its last part. -/
theorem lineageOf_append (front : JsString) (commit : Nat)
    : lineageOf (front ++ lit ":" ++ Json.digits commit) = front := by
  have clean : (Json.digits commit).reverse.findIdx? (fun unit => decide (unit = unitOf ':'))
      = none := by
    rw [List.findIdx?_eq_none_iff]
    intro unit member
    have digit := List.all_eq_true.mp (Json.all_isDigit_digits commit) unit
      (List.mem_reverse.mp member)
    rw [decide_eq_false_iff_not]
    rintro rfl
    revert digit
    decide
  have colon : lit ":" = [unitOf ':'] := by decide
  have found : (front ++ lit ":" ++ Json.digits commit).reverse.findIdx?
      (fun unit => decide (unit = unitOf ':')) = some (Json.digits commit).length := by
    rw [List.reverse_append, List.findIdx?_append, clean, colon]
    simp [List.findIdx?_cons]
  rw [lineageOf, found]
  dsimp only
  rw [colon, List.append_assoc]
  simp

theorem lineageOf_stampOf_inj {storeId : JsString} {epoch other commit later : Nat}
    (same : lineageOf (stampOf storeId epoch commit) = lineageOf (stampOf storeId other later))
    : epoch = other := by
  rw [stampOf, stampOf, lineageOf_append, lineageOf_append] at same
  have digits := List.append_cancel_left same
  rw [← Json.natValue_digits epoch, digits, Json.natValue_digits]

/-- The version of a key: of its tombstone, or else of its entry. -/
def versionOf (db : Database) (key : JsString) : Option Nat :=
  (buried db key).or ((db.kv.get? key).map (·.version))

/-- A snapshot that shows a database as a full one does. -/
structure Depicts (compare : JsString → JsString → Ordering) (storeId : JsString)
    (snapshot : SqliteSnapshot) (db : StateDatabase)
    : Prop where
  stamp : snapshot.stamp = stampOf storeId db.epoch db.tables.commit
  lineage : snapshot.lineage = lineageOf snapshot.stamp
  commit : snapshot.commit = db.tables.commit
  entries : ∀ key, snapshot.entries.get? key = (db.tables.kv.get? key).map (toEntry key)
  versions : ∀ key, snapshot.versions.get? key = versionOf db.tables key
  strict : Strict compare StateEntry.key snapshot.sorted
  members : ∀ entry, entry ∈ snapshot.sorted ↔ snapshot.entries.get? entry.key = some entry

/-- The keys of the entries are among some. -/
def Named (occurs : JsString → Prop) (db : StateDatabase) : Prop :=
  ∀ key row, db.tables.kv.get? key = some row → occurs key

variable {compare : JsString → JsString → Ordering} {occurs : JsString → Prop}
  {storeId : JsString} {db : StateDatabase}

theorem entries_exportState (db : StateDatabase) (key : JsString)
    : (exportState db).entries.get? key = (db.tables.kv.get? key).map (toEntry key) := by
  rw [exportState, JsMap.get?_bindAll_entries toEntry .empty fun _ => Iff.rfl, JsMap.get?_empty,
    Option.or_none]

theorem mem_tombAll (db : Database) (item : JsString × State.Sqlite.Tombstone)
    : item ∈ db.tombAll ↔ item ∈ db.tombstones.entries :=
  List.mem_mergeSort

theorem versions_exportState (db : StateDatabase) (key : JsString)
    : (exportState db).versions.get? key = versionOf db.tables key := by
  rw [exportState]
  dsimp only
  rw [JsMap.get?_bindAll_entries (fun _ row => row.version) _ (mem_tombAll db.tables),
    JsMap.get?_bindAll_entries (fun _ row => row.version) .empty
      fun item => (Iff.rfl : item ∈ db.tables.kv.entries ↔ _), JsMap.get?_empty, Option.or_none]
  rfl

/-- A map with keys as its entries name them. -/
theorem mem_values_iff {map : JsMap JsString StateEntry}
    (named : ∀ key entry, map.get? key = some entry → entry.key = key) (entry : StateEntry)
    : entry ∈ map.values ↔ map.get? entry.key = some entry := by
  constructor
  · intro member
    obtain ⟨⟨key, value⟩, inside, rfl⟩ := List.mem_map.mp member
    have held := JsMap.get?_eq_some_iff.mpr inside
    have same := named key value held
    dsimp only
    rw [same]
    exact held
  · intro held
    exact List.mem_map.mpr ⟨_, JsMap.get?_eq_some_iff.mp held, rfl⟩

theorem depicts_fullSnapshot (order : TotalOn compare occurs) (named : Named occurs db)
    : Depicts compare storeId
      (fullSnapshot compare (stampOf storeId db.epoch db.tables.commit) (exportState db)) db := by
  have keys : ∀ key entry, (exportState db).entries.get? key = some entry →
      entry.key = key ∧ occurs key := by
    intro key entry held
    rw [entries_exportState] at held
    obtain ⟨row, here, rfl⟩ := Option.map_eq_some_iff.mp held
    exact ⟨rfl, named key row here⟩
  have values := mem_values_iff fun key entry held => (keys key entry held).1
  refine ⟨rfl, rfl, rfl, entries_exportState db, versions_exportState db, ?_, fun entry => ?_⟩
  · refine strict_mergeSort order (fun entry member => ?_) ?_
    · exact (keys _ entry ((values entry).mp member)).2
    · have same : (exportState db).entries.values.map StateEntry.key = (exportState db).entries.keys := by
        rw [JsMap.values, JsMap.keys, List.map_map]
        refine List.map_congr_left fun item member => ?_
        exact (keys item.1 item.2 (JsMap.get?_eq_some_iff.mpr member)).1
      rw [same]
      exact (exportState db).entries.distinct
  · rw [fullSnapshot, List.mem_mergeSort]
    exact values entry

def keySet {ν : Type} (map : JsMap JsString ν) : Finset JsString :=
  map.keys.toFinset

variable {key : JsString}

theorem mem_keySet {ν : Type} {map : JsMap JsString ν}
    : key ∈ keySet map ↔ map.get? key ≠ none := by
  rw [keySet, List.mem_toFinset, ne_eq, JsMap.get?_eq_none_iff, not_not]

theorem card_keySet {ν : Type} (map : JsMap JsString ν) : (keySet map).card = map.size := by
  have length := List.toFinset_card_of_nodup map.distinct
  exact length.trans (List.length_map _)

/-- A sum of ones and minus ones is a difference of counts, by induction over the items. -/
theorem foldl_count {α : Type} (more less : α → Bool) (items : List α) (start : Int)
    : items.foldl (fun count item =>
        count + ((if more item then 1 else 0) - (if less item then 1 else 0))) start
      = start + items.countP more - items.countP less := by
  induction items generalizing start with
  | nil => simp
  | cons item rest ih =>
      rw [List.foldl_cons, ih, List.countP_cons, List.countP_cons]
      split <;> split <;> push_cast <;> omega

/-- Keys without repetition, counted as a set. -/
theorem countP_eq_card {keys : List JsString} (distinct : keys.Nodup) (test : JsString → Bool)
    (members : Finset JsString) (same : ∀ key ∈ keys, test key = true ↔ key ∈ members)
    : keys.countP test = (members ∩ keys.toFinset).card := by
  rw [List.countP_eq_length_filter, ← List.toFinset_card_of_nodup (distinct.filter test)]
  congr 1
  ext key
  rw [List.mem_toFinset, List.mem_filter, Finset.mem_inter, List.mem_toFinset]
  constructor
  · rintro ⟨member, passes⟩
    exact ⟨(same key member).mp passes, member⟩
  · rintro ⟨inside, member⟩
    exact ⟨member, (same key member).mpr inside⟩

variable {before now : StateDatabase} {base : SqliteSnapshot} {keys : List JsString}

theorem key_deltaKey (now : StateDatabase) (key : JsString) : (deltaKey now key).key = key := by
  rw [deltaKey]
  split <;> rfl

theorem entry_deltaKey (now : StateDatabase) (key : JsString)
    : (deltaKey now key).entry = (now.tables.kv.get? key).map (toEntry key) := by
  rw [deltaKey]
  cases now.tables.kv.get? key <;> rfl

/-- The version that a delta tells of a changed key, where zero stands for none. -/
theorem version_deltaKey (sound : Sound now.tables)
    (changed : Changed before.tables now.tables keys) (member : key ∈ keys)
    : (if 0 < (deltaKey now key).version then some (deltaKey now key).version else none)
      = versionOf now.tables key := by
  rw [deltaKey, versionOf, buried]
  cases kv : now.tables.kv.get? key with
  | some row =>
      rw [sound.apart key row kv]
      exact if_pos (sound.versions key row kv)
  | none =>
      cases tomb : now.tables.tombstones.get? key with
      | some row => exact if_pos (changed.named key member row tomb)
      | none => rfl

theorem isTombstone_iff (depicts : Depicts compare storeId base before)
    (sound : Sound before.tables) (key : JsString)
    : isTombstone base key = true ↔ key ∈ keySet before.tables.tombstones := by
  rw [mem_keySet, isTombstone, has_eq_isSome, has_eq_isSome, depicts.entries, depicts.versions,
    versionOf, buried]
  cases kv : before.tables.kv.get? key with
  | some row => simp [sound.apart key row kv]
  | none => cases before.tables.tombstones.get? key <;> simp

/-- A snapshot has a version for each entry and each tombstone. -/
theorem versions_size (depicts : Depicts compare storeId base before)
    (sound : Sound before.tables)
    : base.versions.size = before.tables.tombstones.size + base.entries.size := by
  have apart : Disjoint (keySet before.tables.tombstones) (keySet base.entries) := by
    rw [Finset.disjoint_left]
    intro key buried entered
    rw [mem_keySet] at buried entered
    rw [depicts.entries, ne_eq, Option.map_eq_none_iff] at entered
    obtain ⟨row, held⟩ := Option.ne_none_iff_exists'.mp entered
    exact buried (sound.apart key row held)
  rw [← card_keySet, ← card_keySet, ← card_keySet, ← Finset.card_union_of_disjoint apart]
  congr 1
  ext key
  rw [Finset.mem_union, mem_keySet, mem_keySet, mem_keySet, depicts.entries, depicts.versions,
    versionOf, buried]
  cases before.tables.tombstones.get? key <;> cases before.tables.kv.get? key <;> simp

theorem predictTombstones_eq (depicts : Depicts compare storeId base before)
    (soundBefore : Sound before.tables) (sound : Sound now.tables)
    (changed : Changed before.tables now.tables keys) (distinct : keys.Nodup)
    : predictTombstones base (keys.map (deltaKey now))
      = ((keySet before.tables.tombstones).card : Int)
        + (keySet now.tables.tombstones ∩ keys.toFinset).card
        - (keySet before.tables.tombstones ∩ keys.toFinset).card := by
  have counted := foldl_count
    (fun item : SqliteDeltaKey => decide (item.entry.isNone = true ∧ 0 < item.version))
    (fun item => isTombstone base item.key) (keys.map (deltaKey now))
    ((base.versions.size : Int) - base.entries.size)
  simp only [decide_eq_true_eq] at counted
  have buriedNow : ∀ key ∈ keys, ((fun item : SqliteDeltaKey =>
      decide (item.entry.isNone = true ∧ 0 < item.version)) ∘ deltaKey now) key = true
      ↔ key ∈ keySet now.tables.tombstones := by
    intro key member
    have version := version_deltaKey sound changed member
    rw [Function.comp_apply, decide_eq_true_eq, entry_deltaKey, mem_keySet]
    rw [versionOf, buried] at version
    cases kv : now.tables.kv.get? key with
    | some row => simp [sound.apart key row kv]
    | none =>
        rw [kv] at version
        cases tomb : now.tables.tombstones.get? key with
        | none =>
            rw [tomb] at version
            simp only [Option.map_none, Option.or_none, ite_eq_right_iff, reduceCtorEq] at version
            simpa using version
        | some row =>
            rw [tomb] at version
            have positive : 0 < (deltaKey now key).version := by
              by_contra zero
              rw [if_neg zero] at version
              cases version
            simp [positive]
  have buriedBefore : ∀ key ∈ keys,
      ((fun item : SqliteDeltaKey => isTombstone base item.key) ∘ deltaKey now) key = true
      ↔ key ∈ keySet before.tables.tombstones := by
    intro key member
    rw [Function.comp_apply, key_deltaKey]
    exact isTombstone_iff depicts soundBefore key
  rw [predictTombstones, counted, List.countP_map, List.countP_map,
    countP_eq_card distinct _ _ buriedNow, countP_eq_card distinct _ _ buriedBefore,
    versions_size depicts soundBefore, card_keySet]
  push_cast
  omega

/-- Where the number of tombstones is the predicted one, none went without a row. -/
theorem buried_eq_of_predicted (depicts : Depicts compare storeId base before)
    (soundBefore : Sound before.tables) (sound : Sound now.tables)
    (changed : Changed before.tables now.tables keys) (distinct : keys.Nodup)
    (predicted : (now.tables.tombstones.size : Int)
      = predictTombstones base (keys.map (deltaKey now))) (outside : key ∉ keys)
    : buried now.tables key = buried before.tables key := by
  rw [predictTombstones_eq depicts soundBefore sound changed distinct, ← card_keySet] at predicted
  have partsNow := Finset.card_sdiff_add_card_inter (keySet now.tables.tombstones) keys.toFinset
  have partsBefore :=
    Finset.card_sdiff_add_card_inter (keySet before.tables.tombstones) keys.toFinset
  have away (db : StateDatabase)
      : key ∈ keySet db.tables.tombstones \ keys.toFinset ↔ db.tables.tombstones.get? key ≠ none := by
    rw [Finset.mem_sdiff, List.mem_toFinset, mem_keySet]
    exact and_iff_left outside
  rcases Nat.eq_zero_or_pos before.tables.tombstones.size with none_ | some_
  · rw [← card_keySet] at none_
    have empty : keySet now.tables.tombstones \ keys.toFinset = ∅ :=
      Finset.card_eq_zero.mp (by omega)
    have gone := mt (away now).mpr (empty ▸ Finset.notMem_empty key)
    have old : key ∉ keySet before.tables.tombstones := by
      rw [Finset.card_eq_zero.mp none_]
      exact Finset.notMem_empty key
    rw [mem_keySet, not_not] at old
    rw [buried, buried, not_not.mp gone, old]
  · have kept := changed.kept some_
    have fewer : keySet now.tables.tombstones \ keys.toFinset
        ⊆ keySet before.tables.tombstones \ keys.toFinset := by
      intro other member
      rw [Finset.mem_sdiff, List.mem_toFinset, mem_keySet] at member ⊢
      refine ⟨fun absent => ?_, member.2⟩
      rcases kept other member.2 with gone | same
      · exact member.1 gone
      · rw [buried, buried, absent, Option.map_none, Option.map_eq_none_iff] at same
        exact member.1 same
    have same := Finset.eq_of_subset_of_card_le fewer (by omega)
    rcases kept key outside with gone | equal
    · have old := mt (away before).mpr (same ▸ mt (away now).mp (not_not.mpr gone))
      rw [buried, buried, gone, not_not.mp old]
    · exact equal

/-- What the loop over distinct keys makes, by induction over them. -/
theorem applied_spec (distinct : keys.Nodup) (start : Applied)
    : (∀ key, ((keys.map (deltaKey now)).foldl applyKey start).entries.get? key
        = if key ∈ keys then (deltaKey now key).entry else start.entries.get? key)
      ∧ (∀ key, ((keys.map (deltaKey now)).foldl applyKey start).versions.get? key
        = if key ∈ keys then
            if 0 < (deltaKey now key).version then some (deltaKey now key).version else none
          else start.versions.get? key)
      ∧ (∀ key, key ∈ ((keys.map (deltaKey now)).foldl applyKey start).removed
        ↔ key ∈ start.removed ∨ key ∈ keys ∧ start.entries.get? key ≠ none)
      ∧ ((keys.map (deltaKey now)).foldl applyKey start).inserted
        = start.inserted ++ keys.filterMap fun key => (deltaKey now key).entry := by
  induction keys generalizing start with
  | nil => simp
  | cons first rest ih =>
      obtain ⟨fresh, others⟩ := List.nodup_cons.mp distinct
      obtain ⟨entries, versions, removed, inserted⟩ := ih others (applyKey start (deltaKey now first))
      have stepEntries (key : JsString)
          : (applyKey start (deltaKey now first)).entries.get? key
            = if key = first then (deltaKey now first).entry else start.entries.get? key := by
        rw [applyKey, key_deltaKey]
        cases (deltaKey now first).entry with
        | none => exact JsMap.get?_delete ..
        | some entry => exact JsMap.get?_set ..
      have stepVersions (key : JsString)
          : (applyKey start (deltaKey now first)).versions.get? key
            = if key = first then
                if 0 < (deltaKey now first).version then some (deltaKey now first).version else none
              else start.versions.get? key := by
        rw [applyKey, key_deltaKey]
        dsimp only
        split
        · exact JsMap.get?_set ..
        · exact JsMap.get?_delete ..
      rw [List.map_cons, List.foldl_cons]
      refine ⟨fun key => ?_, fun key => ?_, fun key => ?_, ?_⟩
      · rw [entries, stepEntries]
        by_cases same : key = first
        · subst same
          simp [fresh]
        · simp [same]
      · rw [versions, stepVersions]
        by_cases same : key = first
        · subst same
          simp [fresh]
        · simp [same]
      · rw [removed, stepEntries, applyKey, key_deltaKey, has_eq_isSome]
        by_cases same : key = first
        · subst same
          cases start.entries.get? key <;> simp [fresh]
        · cases start.entries.get? first <;> simp [same]
      · rw [inserted, applyKey, List.append_assoc, List.filterMap_cons]
        cases (deltaKey now first).entry <;> rfl

theorem get?_replaceTombstones (entries : JsMap JsString StateEntry)
    (versions : JsMap JsString Nat) (db : Database) (key : JsString)
    : (replaceTombstones entries versions
        (db.tombAll.map fun item => (item.1, item.2.version))).get? key
      = (buried db key).or ((versions.get? key).filter fun _ => entries.has key) := by
  have bound : replaceTombstones entries versions
        (db.tombAll.map fun item => (item.1, item.2.version))
      = JsMap.bindAll Prod.fst (fun item => item.2.version)
        (versions.filter fun key _ => entries.has key) db.tombAll := by
    rw [replaceTombstones, JsMap.bindAll, List.foldl_map]
    rfl
  rw [bound, JsMap.get?_bindAll_entries (fun _ row => row.version) _ (mem_tombAll db),
    JsMap.get?_filter]
  rfl

theorem merged_spec (order : TotalOn compare occurs)
    (depicts : Depicts compare storeId base before) (namedBefore : Named occurs before)
    (named : Named occurs now) (changed : Changed before.tables now.tables keys)
    (distinct : keys.Nodup) {removed : List JsString} {inserted : List StateEntry}
    (gone : ∀ key, key ∈ removed ↔ key ∈ keys ∧ base.entries.get? key ≠ none)
    (new : inserted = keys.filterMap fun key => (deltaKey now key).entry)
    {merged : List StateEntry}
    (merge : merged = mergeFrom (fun left right => compare left.key right.key == .lt)
      (base.sorted.filter fun entry => decide (entry.key ∉ removed)) 0
      (inserted.mergeSort (byKey compare)))
    : Strict compare StateEntry.key merged
      ∧ ∀ entry, entry ∈ merged
        ↔ (now.tables.kv.get? entry.key).map (toEntry entry.key) = some entry := by
  have insertedKey (entry : StateEntry)
      : entry ∈ inserted
        ↔ entry.key ∈ keys ∧ (now.tables.kv.get? entry.key).map (toEntry entry.key) = some entry := by
    rw [new, List.mem_filterMap]
    constructor
    · rintro ⟨key, inside, held⟩
      rw [entry_deltaKey] at held
      obtain ⟨row, kv, rfl⟩ := Option.map_eq_some_iff.mp held
      exact ⟨inside, held⟩
    · rintro ⟨inside, held⟩
      exact ⟨entry.key, inside, (entry_deltaKey now entry.key).trans held⟩
  have keptKey (entry : StateEntry)
      : entry ∈ base.sorted.filter (fun entry => decide (entry.key ∉ removed))
        ↔ entry.key ∉ keys
          ∧ (before.tables.kv.get? entry.key).map (toEntry entry.key) = some entry := by
    rw [List.mem_filter, decide_eq_true_eq, depicts.members, gone, ← depicts.entries]
    constructor
    · rintro ⟨held, fresh⟩
      exact ⟨fun inside => fresh ⟨inside, held ▸ Option.some_ne_none _⟩, held⟩
    · rintro ⟨outside, held⟩
      exact ⟨held, fun both => outside both.1⟩
  have insertedOccurs : ∀ entry ∈ inserted, occurs entry.key := by
    intro entry member
    obtain ⟨row, kv, _⟩ := Option.map_eq_some_iff.mp ((insertedKey entry).mp member).2
    exact named entry.key row kv
  have insertedDistinct : (inserted.map StateEntry.key).Nodup := by
    rw [new, List.map_filterMap]
    refine distinct.filterMap fun left right key hl hr => ?_
    rw [Option.mem_def, entry_deltaKey, Option.map_map, Option.map_eq_some_iff] at hl hr
    obtain ⟨_, _, rfl⟩ := hl
    obtain ⟨_, _, same⟩ := hr
    exact same.symm
  rw [merge]
  refine ⟨?_, fun entry => ?_⟩
  · refine Strict.mergeFrom order (depicts.strict.sublist List.filter_sublist)
      (strict_mergeSort order insertedOccurs insertedDistinct) (fun entry member => ?_)
      (fun entry member => insertedOccurs entry (List.mem_mergeSort.mp member))
      (fun one member two other same => ?_) (Nat.zero_le _)
    · obtain ⟨row, kv, _⟩ := Option.map_eq_some_iff.mp ((keptKey entry).mp member).2
      exact namedBefore entry.key row kv
    · have outside := ((keptKey one).mp member).1
      have inside := ((insertedKey two).mp (List.mem_mergeSort.mp other)).1
      exact outside (same ▸ inside)
  · rw [mem_mergeFrom (Nat.zero_le _), List.drop_zero, List.mem_mergeSort, keptKey, insertedKey]
    by_cases inside : entry.key ∈ keys
    · simp [inside]
    · rw [changed.kv entry.key inside]
      simp [inside]

/-- The versions after a delta: those of the changed keys are read again, and where the tombstones
were read, those of the entries stay beside them.
-/
theorem versions_spec (depicts : Depicts compare storeId base before)
    (soundBefore : Sound before.tables) (sound : Sound now.tables)
    (changed : Changed before.tables now.tables keys) (distinct : keys.Nodup) {applied : Applied}
    (entries : ∀ key, applied.entries.get? key = (now.tables.kv.get? key).map (toEntry key))
    (versions : ∀ key, applied.versions.get? key
      = if key ∈ keys then
          if 0 < (deltaKey now key).version then some (deltaKey now key).version else none
        else base.versions.get? key)
    (key : JsString)
    : (replaceTombstones applied.entries applied.versions
        (now.tables.tombAll.map fun item => (item.1, item.2.version))).get? key
        = versionOf now.tables key
      ∧ ((now.tables.tombstones.size : Int) = predictTombstones base (keys.map (deltaKey now)) →
        applied.versions.get? key = versionOf now.tables key) := by
  constructor
  · rw [get?_replaceTombstones, has_eq_isSome, entries, versionOf]
    congr 1
    cases kv : now.tables.kv.get? key with
    | none => simp
    | some row =>
        have kept : applied.versions.get? key = some row.version := by
          rw [versions]
          split
          · next member =>
              rw [version_deltaKey sound changed member, versionOf, buried, kv,
                sound.apart key row kv]
              rfl
          · next outside =>
              have old := kv
              rw [changed.kv key outside] at old
              rw [depicts.versions, versionOf, buried, old, soundBefore.apart key row old]
              rfl
        simp [kept]
  · intro predicted
    rw [versions]
    split
    · next member => exact version_deltaKey sound changed member
    · next outside =>
        rw [depicts.versions, versionOf, versionOf, changed.kv key outside,
          buried_eq_of_predicted depicts soundBefore sound changed distinct predicted outside]

/-- A snapshot brought forward by a complete delta depicts the database that the delta was read
from.
-/
theorem Depicts.apply (order : TotalOn compare occurs)
    (depicts : Depicts compare storeId base before) (soundBefore : Sound before.tables)
    (sound : Sound now.tables) (namedBefore : Named occurs before) (named : Named occurs now)
    (changed : Changed before.tables now.tables keys) (distinct : keys.Nodup)
    {tombstones : Option (List (JsString × Nat))}
    (read : tombstones
      = if (now.tables.tombstones.size : Int) = predictTombstones base (keys.map (deltaKey now)) then
          none
        else some (now.tables.tombAll.map fun item => (item.1, item.2.version)))
    : Depicts compare storeId
      (applySqliteDelta compare base {
        stamp := stampOf storeId now.epoch now.tables.commit
        commit := now.tables.commit
        complete := true
        changed := keys.map (deltaKey now)
        tombstones })
      now := by
  have predicted (none_ : tombstones = none)
      : (now.tables.tombstones.size : Int) = predictTombstones base (keys.map (deltaKey now)) := by
    by_contra other
    rw [none_, if_neg other] at read
    cases read
  rw [applySqliteDelta]
  split
  · next nothing =>
      have empty : keys = [] := List.map_eq_nil_iff.mp nothing.1
      subst empty
      refine ⟨rfl, rfl, rfl, fun key => ?_, fun key => ?_, depicts.strict, depicts.members⟩
      · rw [changed.kv key List.not_mem_nil]
        exact depicts.entries key
      · rw [versionOf, changed.kv key List.not_mem_nil, buried_eq_of_predicted depicts soundBefore
          sound changed distinct (predicted nothing.2) List.not_mem_nil]
        exact depicts.versions key
  · have made := @applied_spec now keys distinct {
      entries := base.entries, versions := base.versions, removed := [], inserted := []
    }
    dsimp only at made ⊢
    generalize (keys.map (deltaKey now)).foldl applyKey _ = applied at made ⊢
    obtain ⟨entries, versions, removed, inserted⟩ := made
    simp only [List.not_mem_nil, false_or] at removed
    rw [List.nil_append] at inserted
    have current (key : JsString)
        : applied.entries.get? key = (now.tables.kv.get? key).map (toEntry key) := by
      rw [entries]
      split
      · exact entry_deltaKey now key
      · next outside => rw [depicts.entries, changed.kv key outside]
    have merged : (if applied.removed = [] ∧ applied.inserted = [] then base.sorted
        else
          mergeFrom (fun left right => compare left.key right.key == .lt)
            (if applied.removed = [] then base.sorted
            else base.sorted.filter fun entry => decide (entry.key ∉ applied.removed))
            0 (applied.inserted.mergeSort (byKey compare)))
        = mergeFrom (fun left right => compare left.key right.key == .lt)
            (base.sorted.filter fun entry => decide (entry.key ∉ applied.removed))
            0 (applied.inserted.mergeSort (byKey compare)) := by
      split
      · next nothing =>
          rw [nothing.2, List.mergeSort_nil, mergeFrom]
          simp [nothing.1]
      · split
        · next none_ => simp [none_]
        · rfl
    obtain ⟨strict, members⟩ :=
      merged_spec order depicts namedBefore named changed distinct removed inserted merged
    have known := versions_spec depicts soundBefore sound changed distinct current versions
    refine ⟨rfl, rfl, rfl, current, fun key => ?_, strict, fun entry => ?_⟩
    · cases tombstones with
      | none => exact (known key).2 (predicted rfl)
      | some all =>
          have whole : all = now.tables.tombAll.map fun item => (item.1, item.2.version) := by
            split at read
            · cases read
            · exact Option.some.inj read
          rw [whole]
          exact (known key).1
    · rw [current]
      exact members entry

end PiFabric.Delta
