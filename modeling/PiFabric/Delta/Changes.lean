import PiFabric.Delta.Feed

/-! What the commits of a state database change: the keys of their rows, and tombstones that go
without a row. Whatever happened since a commit, the feed tells those keys, or it shows that it no
longer reaches back.
-/

namespace PiFabric.Delta

open JsString Outcome
open State (StateError StateFile kv_applyPut kv_applyDelete tombstones_applyPut
  tombstones_applyDelete transition_ok)
open State.Sqlite (Database Tx StateChange Tombstone applyPut applyDelete)

def buried (db : Database) (key : JsString) : Option Nat :=
  (db.tombstones.get? key).map (·.version)

/-- Away from some keys, tombstones are as they were or gone. -/
def Kept (before after : Database) (keys : List JsString) : Prop :=
  ∀ key ∉ keys, after.tombstones.get? key = none ∨ buried after key = buried before key

/-- Only some keys have changed, and their tombstones have versions. Tombstones of other keys may be
gone; where there was none before, an import may have brought any.
-/
structure Changed (before after : Database) (keys : List JsString) : Prop where
  kv : ∀ key ∉ keys, after.kv.get? key = before.kv.get? key
  kept : 0 < before.tombstones.size → Kept before after keys
  named : ∀ key ∈ keys, ∀ row, after.tombstones.get? key = some row → 0 < row.version

/-- Fewer tombstones, and the same entries. -/
structure Fewer (before after : Database) : Prop where
  kv : after.kv = before.kv
  tombstones : ∀ key, after.tombstones.get? key = none
    ∨ after.tombstones.get? key = before.tombstones.get? key

theorem Fewer.sound {before after : Database} (fewer : Fewer before after) (sound : Sound before)
    : Sound after := by
  refine ⟨fun key row held => ?_, fun key row held => sound.versions key row (fewer.kv ▸ held)⟩
  rcases fewer.tombstones key with gone | same
  · exact gone
  · rw [same]
    exact sound.apart key row (fewer.kv ▸ held)

variable {before middle after : Database} {keys others : List JsString}

theorem Changed.refl (db : Database) : Changed db db [] :=
  ⟨fun _ _ => rfl, fun _ _ _ => Or.inr rfl, nofun⟩

theorem Kept.trans (earlier : Kept before middle keys) (later : Kept middle after others)
    : Kept before after (keys ++ others) := by
  intro key outside
  rw [List.mem_append, not_or] at outside
  rcases later key outside.2 with gone | same
  · exact Or.inl gone
  · rcases earlier key outside.1 with gone | old
    · rw [buried, buried, gone, Option.map_none, Option.map_eq_none_iff] at same
      exact Or.inl same
    · exact Or.inr (same.trans old)

/-- A later change that keeps tombstones adds its keys. -/
theorem Changed.trans (earlier : Changed before middle keys) (later : Changed middle after others)
    (kept : Kept middle after others)
    : Changed before after (keys ++ others) := by
  refine ⟨?_, fun some_ => (earlier.kept some_).trans kept, ?_⟩
  · intro key outside
    rw [List.mem_append, not_or] at outside
    rw [later.kv key outside.2, earlier.kv key outside.1]
  · intro key member row held
    by_cases second : key ∈ others
    · exact later.named key second row held
    · have first := (List.mem_append.mp member).resolve_right second
      rcases kept key second with gone | same
      · rw [gone] at held
        cases held
      · rw [buried, buried, held, Option.map_some] at same
        obtain ⟨old, here, version⟩ := Option.map_eq_some_iff.mp same.symm
        rw [← version]
        exact earlier.named key first old here

theorem Changed.congr (changed : Changed before after keys)
    (same : ∀ key, key ∈ others ↔ key ∈ keys)
    : Changed before after others :=
  ⟨fun key outside => changed.kv key (mt (same key).mpr outside),
    fun some_ key outside => changed.kept some_ key (mt (same key).mpr outside),
    fun key member => changed.named key ((same key).mp member)⟩

/-- Evictions change no key that a row would tell. -/
theorem Fewer.changed (fewer : Fewer middle after) (earlier : Changed before middle keys)
    : Changed before after keys := by
  have gone : Changed middle after [] := by
    refine ⟨fun key _ => by rw [fewer.kv], fun _ key _ => ?_, nofun⟩
    exact (fewer.tombstones key).imp_right fun same => by rw [buried, same, buried]
  have kept : Kept middle after [] := fun key _ =>
    (fewer.tombstones key).imp_right fun same => by rw [buried, same, buried]
  exact List.append_nil keys ▸ earlier.trans gone kept

/-- What a body has done so far. -/
structure BodySpec (db : Database) (tx : Tx) : Prop where
  sound : Sound tx.db
  changed : Changed db tx.db (tx.changes.map (·.key))
  kept : Kept db tx.db (tx.changes.map (·.key))
  commit : tx.db.commit = db.commit
  same : tx.changes = [] → tx.db = db

variable {tx next : Tx}

theorem BodySpec.write {db : Database} (spec : BodySpec db tx) {change : StateChange}
    (sound : Sound next.db) (changes : next.changes = tx.changes ++ [change])
    (commit : next.db.commit = tx.db.commit)
    (kv : ∀ key, key ≠ change.key → next.db.kv.get? key = tx.db.kv.get? key)
    (tombstones : ∀ key, key ≠ change.key →
      next.db.tombstones.get? key = tx.db.tombstones.get? key)
    (named : ∀ row, next.db.tombstones.get? change.key = some row → 0 < row.version)
    : BodySpec db next := by
  have kept : Kept tx.db next.db [change.key] := fun key outside => Or.inr (by
    rw [buried, tombstones key (by simpa using outside), buried])
  have step : Changed tx.db next.db [change.key] := by
    refine ⟨fun key outside => kv key (by simpa using outside), fun _ => kept, ?_⟩
    intro key member row held
    obtain rfl := List.mem_singleton.mp member
    exact named row held
  refine ⟨sound, ?_, ?_, commit.trans spec.commit, fun none_ => ?_⟩
  · rw [changes, List.map_append]
    exact spec.changed.trans step kept
  · rw [changes, List.map_append]
    exact spec.kept.trans kept
  · rw [changes] at none_
    exact absurd none_ (by simp)

/-- A body keeps the tables in order and tells every key that it changes, by induction over its
writes.
-/
theorem Body.spec {db : Database} (body : Body db tx) (sound : Sound db)
    : BodySpec db tx := by
  induction body with
  | begun => exact ⟨sound, Changed.refl db, fun _ _ => Or.inr rfl, rfl, fun _ => rfl⟩
  | @put tx key _ _ value identity version highWater before planned now ih =>
      obtain ⟨-, issued, -⟩ := transition_ok planned
      have tombstones (other : JsString) := tombstones_applyPut tx key value identity version
        highWater now other (ih.sound.apart key)
      refine ih.write ⟨fun other row held => ?_, fun other row held => ?_⟩ rfl rfl
        (fun other apart => (kv_applyPut ..).trans (if_neg apart))
        (fun other apart => (tombstones other).trans (if_neg apart)) (fun row held => ?_)
      · rw [tombstones]
        split
        · rfl
        · next apart =>
            rw [kv_applyPut, if_neg apart] at held
            exact ih.sound.apart other row held
      · rw [kv_applyPut] at held
        split at held
        · obtain rfl := Option.some.inj held
          exact issued ▸ Nat.succ_pos _
        · exact ih.sound.versions other row held
      · rw [tombstones, if_pos rfl] at held
        cases held
  | @delete tx key _ _ version highWater before planned ih =>
      obtain ⟨-, -, issued, -⟩ := transition_ok planned
      refine ih.write ⟨fun other row held => ?_, fun other row held => ?_⟩ rfl rfl
        (fun other apart => (kv_applyDelete ..).trans (if_neg apart))
        (fun other apart => (tombstones_applyDelete ..).trans (if_neg apart)) (fun row held => ?_)
      · rw [kv_applyDelete] at held
        split at held
        · cases held
        · next apart =>
            rw [tombstones_applyDelete, if_neg apart]
            exact ih.sound.apart other row held
      · rw [kv_applyDelete] at held
        split at held
        · cases held
        · exact ih.sound.versions other row held
      · rw [tombstones_applyDelete, if_pos rfl] at held
        obtain rfl := Option.some.inj held
        exact issued ▸ Nat.succ_pos _

/-- What an import has done so far. -/
structure Imported (state : StateFile) (tx : Tx) : Prop where
  commit : tx.db.commit = 0
  kv : ∀ key row, tx.db.kv.get? key = some row → 0 < row.version ∧ key ∈ tx.changes.map (·.key)
  given : ∀ key ∈ tx.changes.map (·.key), state.entries.has key = true
  apart : ∀ key, state.entries.has key = true → tx.db.tombstones.get? key = none

variable {state : StateFile}

theorem Imported.entry (imported : Imported state tx) {item : JsString × Json}
    (member : item ∈ state.entries.entries) (done : State.Sqlite.importEntry tx item = .ok next)
    : Imported state next := by
  obtain ⟨-, -, done⟩ := bind_eq_ok.mp done
  split at done
  swap
  · cases done
  obtain ⟨version, -, done⟩ := bind_eq_ok.mp done
  split at done
  · cases done
  next positive =>
  split at done
  swap
  · cases done
  obtain rfl := Except.ok.inj done
  refine ⟨imported.commit, fun key row held => ?_, fun key inside => ?_, imported.apart⟩
  · dsimp only at held ⊢
    rw [JsMap.get?_set] at held
    rw [List.map_append, List.mem_append]
    split at held
    · next same =>
        obtain rfl := Option.some.inj held
        exact ⟨Nat.pos_of_ne_zero positive, Or.inr (by simp [same])⟩
    · exact (imported.kv key row held).imp_right Or.inl
  · dsimp only at inside
    rw [List.map_append, List.mem_append] at inside
    rcases inside with old | new
    · exact imported.given key old
    · obtain rfl : key = item.1 := by simpa using new
      exact JsMap.has_iff.mpr (List.mem_map_of_mem member)

theorem Imported.tombstone (imported : Imported state tx) {key : JsString}
    (done : State.Sqlite.importTombstone state tx key = .ok next)
    : Imported state next := by
  unfold State.Sqlite.importTombstone at done
  split at done
  · next absent _ =>
      obtain ⟨-, -, done⟩ := bind_eq_ok.mp done
      obtain ⟨version, -, done⟩ := bind_eq_ok.mp done
      obtain rfl := Except.ok.inj done
      refine ⟨imported.commit, imported.kv, imported.given, fun other has => ?_⟩
      dsimp only
      rw [JsMap.get?_set, if_neg, imported.apart other has]
      rintro rfl
      rw [has] at absent
      cases absent
  · obtain rfl := Except.ok.inj done
    exact imported

/-- A fold that returned has kept what each of its steps keeps. -/
theorem foldlM_keeps {σ ι ε : Type} {act : σ → ι → Except ε σ} {holds : σ → Prop} {items : List ι}
    (step : ∀ state item next, item ∈ items → holds state → act state item = .ok next → holds next)
    {first last : σ} (before : holds first) (done : items.foldlM act first = .ok last)
    : holds last := by
  -- by induction over the items
  induction items generalizing first with
  | nil => exact Except.ok.inj done ▸ before
  | cons item rest ih =>
      rw [List.foldlM_cons] at done
      obtain ⟨next, one, done⟩ := bind_eq_ok.mp done
      exact ih (fun state other next member => step state other next (List.mem_cons_of_mem _ member))
        (step first item next List.mem_cons_self before one) done

theorem imported_of_importBody (done : importBody state = .ok tx)
    : Imported state tx := by
  obtain ⟨highWater, -, done⟩ := bind_eq_ok.mp done
  obtain ⟨entered, folded, done⟩ := bind_eq_ok.mp done
  have first : Imported state entered :=
    foldlM_keeps (fun _ _ _ member held => held.entry member)
      ⟨rfl, fun _ _ held => (by cases held), fun _ member => (by cases member), fun _ _ => rfl⟩
      folded
  exact foldlM_keeps (fun _ _ _ _ held => held.tombstone) first done

theorem eq_empty_of_size {ν : Type} {map : JsMap JsString ν} (none_ : map.size = 0)
    : map = .empty :=
  JsMap.ext (List.length_eq_zero_iff.mp none_)

theorem Imported.spec (imported : Imported state tx)
    : Sound tx.db ∧ ∀ db : Database, db.kv.size = 0 → db.tombstones.size = 0 →
      Changed db tx.db (tx.changes.map (·.key)) := by
  refine ⟨⟨fun key row held => ?_, fun key row held => (imported.kv key row held).1⟩,
    fun db entries tombstones => ⟨fun key outside => ?_, fun some_ => ?_, fun key member row held => ?_⟩⟩
  · exact imported.apart key (imported.given key (imported.kv key row held).2)
  · rw [eq_empty_of_size entries, JsMap.get?_empty, Option.eq_none_iff_forall_ne_some]
    exact fun row held => outside (imported.kv key row held).2
  · omega
  · rw [imported.apart key (imported.given key member)] at held
    cases held

theorem fewer_finish (maxTombstones : Nat) (tx : Tx)
    : Fewer tx.db (State.Sqlite.finish maxTombstones tx) := by
  unfold State.Sqlite.finish
  dsimp only
  split
  · split
    · refine ⟨rfl, fun key => ?_⟩
      dsimp only [State.Sqlite.evict]
      rw [JsMap.get?_filter]
      cases tx.db.tombstones.get? key with
      | none => exact Or.inl rfl
      | some row =>
          rw [Option.filter_some]
          split
          · exact Or.inr rfl
          · exact Or.inl rfl
    · exact ⟨rfl, fun _ => Or.inr rfl⟩
  · exact ⟨rfl, fun _ => Or.inr rfl⟩

theorem changeInsert_rows (commit : Nat) (rows : List ChangeRow) (changes : List StateChange)
    : ∃ new, changes.foldl (changeInsert commit) rows = rows ++ new
      ∧ new.map (·.key) = changes.map (·.key) ∧ ∀ row ∈ new, row.commit = commit := by
  induction changes generalizing rows with
  | nil => exact ⟨[], (List.append_nil rows).symm, rfl, nofun⟩
  | cons change rest ih =>
      obtain ⟨row, made, named, numbered⟩ : ∃ row, changeInsert commit rows change = rows ++ [row]
          ∧ row.key = change.key ∧ row.commit = commit := ⟨_, rfl, rfl, rfl⟩
      obtain ⟨new, inserted, keys, commits⟩ := ih (rows ++ [row])
      refine ⟨row :: new, ?_, ?_, ?_⟩
      · rw [List.foldl_cons, made, inserted, List.append_assoc]
        rfl
      · rw [List.map_cons, List.map_cons, named, keys]
      · intro other member
        rcases List.mem_cons.mp member with rfl | later
        · exact numbered
        · exact commits other later

/-- Trimming drops whole commits. -/
theorem feed_rows (store : SqliteStateStore) (commit : Nat) (rows : List ChangeRow)
    (changes : List StateChange)
    : ∃ new, new.map (·.key) = changes.map (·.key) ∧ (∀ row ∈ new, row.commit = commit)
      ∧ (feed store commit rows changes = rows ++ new
        ∨ ∃ last, feed store commit rows changes
          = (rows ++ new).filter fun row => decide (last < row.commit)) := by
  obtain ⟨new, inserted, keys, commits⟩ := changeInsert_rows commit rows changes
  refine ⟨new, keys, commits, ?_⟩
  simp only [feed, inserted, changeTrim]
  generalize (if changes = [] then 0 else _) = seq
  split
  · split
    · exact Or.inl rfl
    · next last _ => exact Or.inr ⟨last.commit, rfl⟩
  · exact Or.inl rfl

end PiFabric.Delta
